import Mathlib.Data.Nat.Digits.Defs
import Mathlib.Tactic.Ring
import Vsys.Stream.Blocks

/-!
# Readers of a byte stream

A reader takes a value from the front of a stream and leaves the rest.  `Reads x written a` says
that `x` takes `written`, whatever follows, and makes `a` of it.  Its rules follow the way readers
are put together, so that a file format is read back part by part.

Of a stream that is not what has been written for a reader, `TakesAtMost` says how much it may take.

The words of a file are little-endian and signed.  `fread` reads into a buffer that is already
there, as in C: where the stream ends too early, the end of the buffer stays as it was.
-/

namespace Vsys.Io

open Vsys.Stream

/-- The bytes of a text. -/
def ascii (text : String) : List UInt8 := text.toList.map fun c ↦ UInt8.ofNat c.toNat

/-- What takes a value from the front of a stream, or fails. -/
abbrev Reader (τ α : Type) := StateT (List τ) Option α

section Rules

variable {τ α β : Type}

/-- The reader takes `written` from the front of the stream, and makes `a` of it. -/
def Reads (x : Reader τ α) (written : List τ) (a : α) : Prop :=
  ∀ rest, x.run (written ++ rest) = some (a, rest)

theorem Reads.pure (a : α) : Reads (Pure.pure a : Reader τ α) [] a := fun _ ↦ rfl

/-- What is read behind a part that has been written for it. -/
theorem Reads.run_bind {x : Reader τ α} {written : List τ} {a : α} (hx : Reads x written a)
    (f : α → Reader τ β) (rest : List τ) :
    (x >>= f).run (written ++ rest) = (f a).run rest := by
  rw [StateT.run_bind, hx rest]
  rfl

theorem Reads.bind {x : Reader τ α} {f : α → Reader τ β} {first second : List τ} {a : α} {b : β}
    (hx : Reads x first a) (hf : Reads (f a) second b) : Reads (x >>= f) (first ++ second) b := by
  intro rest
  rw [List.append_assoc, hx.run_bind f (second ++ rest)]
  exact hf rest

theorem Reads.map {x : Reader τ α} {written : List τ} {a : α} (f : α → β) (h : Reads x written a) :
    Reads (f <$> x) written (f a) := by
  intro rest
  rw [StateT.run_map, h rest]
  rfl

/-- The last part of a reader that only puts its parts together behind it. -/
theorem Reads.bind_pure {x : Reader τ α} {written : List τ} {a : α} (h : Reads x written a)
    (f : α → β) : Reads (x >>= fun a ↦ Pure.pure (f a)) written (f a) := by
  have hbind : Reads (x >>= fun a ↦ Pure.pure (f a)) (written ++ []) (f a) :=
    h.bind (Reads.pure (f a))
  rwa [List.append_nil] at hbind

/-- Nothing is left of a stream that has been written for the reader. -/
theorem Reads.whole {x : Reader τ α} {written : List τ} {a : α} (h : Reads x written a) :
    x.run written = some (a, []) := by
  have hrest := h []
  rwa [List.append_nil] at hrest

/-- What is read behind a part that has taken its value. -/
theorem run'_bind_some {x : Reader τ α} {f : α → Reader τ β} {stream rest : List τ} {a : α}
    (h : x.run stream = some (a, rest)) : (x >>= f).run' stream = (f a).run' rest :=
  calc
    (x >>= f).run' stream = Prod.fst <$> (x.run stream).bind fun r ↦ (f r.1).run r.2 := rfl
    _ = (f a).run' rest := by rw [h]; rfl

theorem run'_bind_none {x : Reader τ α} {f : α → Reader τ β} {stream : List τ}
    (h : x.run stream = none) : (x >>= f).run' stream = none :=
  calc
    (x >>= f).run' stream = Prod.fst <$> (x.run stream).bind fun r ↦ (f r.1).run r.2 := rfl
    _ = none := by rw [h]; rfl

/-- The same reader again and again. -/
def many (x : Reader τ α) : ℕ → Reader τ (List α)
  | 0 => Pure.pure []
  | n + 1 => x >>= fun a ↦ (a :: ·) <$> many x n

theorem Reads.many {x : Reader τ α} {write : α → List τ} {l : List α}
    (h : ∀ a ∈ l, Reads x (write a) a) : Reads (many x l.length) (l.flatMap write) l := by
  induction l with
  | nil => exact Reads.pure []
  | cons a l ih =>
      rw [List.forall_mem_cons] at h
      exact h.1.bind ((ih h.2).map (a :: ·))

end Rules

/-! ## How much is taken -/

section Taking

variable {τ α β : Type}

/-- The reader takes at most `size a` of a stream of which it makes `a`. -/
def TakesAtMost (x : Reader τ α) (size : α → ℕ) : Prop :=
  ∀ stream rest a, x.run stream = some (a, rest) → stream.length ≤ size a + rest.length

theorem TakesAtMost.pure (a : α) (size : α → ℕ) :
    TakesAtMost (Pure.pure a : Reader τ α) size := by
  intro stream rest b h
  obtain ⟨-, rfl⟩ := Prod.mk.inj (Option.some.inj h)
  exact Nat.le_add_left _ _

theorem TakesAtMost.mono {x : Reader τ α} {size larger : α → ℕ} (hx : TakesAtMost x size)
    (h : ∀ a, size a ≤ larger a) : TakesAtMost x larger := fun stream rest a hread ↦
  (hx stream rest a hread).trans (Nat.add_le_add_right (h a) _)

theorem TakesAtMost.failure (size : α → ℕ) : TakesAtMost (failure : Reader τ α) size :=
  fun _ _ _ h ↦ absurd h.symm (Option.some_ne_none _)

theorem TakesAtMost.bind {x : Reader τ α} {f : α → Reader τ β} {n : ℕ} {size : β → ℕ}
    (hx : TakesAtMost x fun _ ↦ n) (hf : ∀ a, TakesAtMost (f a) size) :
    TakesAtMost (x >>= f) fun b ↦ n + size b := by
  intro stream rest b h
  rw [StateT.run_bind] at h
  obtain ⟨⟨a, left⟩, hfirst, hsecond⟩ := Option.bind_eq_some_iff.mp h
  have hone := hx stream left a hfirst
  have htwo := hf a left rest b hsecond
  dsimp only at hone ⊢
  omega

theorem TakesAtMost.map {x : Reader τ α} {f : α → β} {size : β → ℕ}
    (hx : TakesAtMost x fun a ↦ size (f a)) : TakesAtMost (f <$> x) size := by
  intro stream rest b h
  rw [StateT.run_map] at h
  obtain ⟨⟨a, left⟩, hread, hmade⟩ := Option.map_eq_some_iff.mp h
  obtain ⟨rfl, rfl⟩ := Prod.mk.inj hmade
  exact hx stream left a hread

end Taking

/-! ## Bytes -/

/-- `fread` of as many bytes as the buffer has. -/
def fread {τ : Type} (buffer : List τ) : Reader τ (List τ) := fun file ↦
  some (file.take buffer.length ++ buffer.drop file.length, file.drop buffer.length)

theorem fread_reads {τ : Type} {buffer written : List τ} (h : written.length = buffer.length) :
    Reads (fread buffer) written written := by
  intro rest
  change some _ = _
  have hcovered : buffer.length ≤ (written ++ rest).length := by
    rw [List.length_append]
    omega
  rw [List.drop_eq_nil_of_le hcovered, ← h, List.take_left, List.drop_left, List.append_nil]

theorem fread_takesAtMost {τ : Type} (buffer : List τ) :
    TakesAtMost (fread buffer) fun _ ↦ buffer.length := by
  intro stream rest a h
  obtain ⟨-, rfl⟩ := Prod.mk.inj (Option.some.inj h)
  rw [List.length_drop]
  dsimp only
  omega

/-- The bytes of a number of so many of them, the lowest first. -/
def leBytes : ℕ → ℕ → List UInt8
  | 0, _ => []
  | width + 1, n => UInt8.ofNat n :: leBytes width (n / 256)

@[simp] theorem leBytes_length (width n : ℕ) : (leBytes width n).length = width := by
  induction width generalizing n with
  | zero => rfl
  | succ width ih => rw [leBytes, List.length_cons, ih]

theorem ofDigits_leBytes (width n : ℕ) :
    Nat.ofDigits 256 ((leBytes width n).map UInt8.toNat) = n % 256 ^ width := by
  induction width generalizing n with
  | zero => rw [pow_zero, Nat.mod_one]; rfl
  | succ width ih =>
      calc
        _ = n % 256 + 256 * (n / 256 % 256 ^ width) := by
          rw [leBytes, List.map_cons, Nat.ofDigits_cons, ih, UInt8.toNat_ofNat']
        _ = n % 256 ^ (width + 1) := by rw [pow_succ', Nat.mod_mul]

/-- A signed number as it is stored. -/
def intBytes (width : ℕ) (x : ℤ) : List UInt8 := leBytes width (x % (256 ^ width : ℕ)).toNat

/-- What stands in so many bytes as a signed number. -/
def intOf (bytes : List UInt8) : ℤ :=
  Int.bmod (Nat.ofDigits 256 (bytes.map UInt8.toNat) : ℕ) (256 ^ bytes.length)

@[simp] theorem intBytes_length (width : ℕ) (x : ℤ) : (intBytes width x).length = width :=
  leBytes_length width _

/-- **Words.** A number in the range of its type is read back. -/
theorem intOf_intBytes {width : ℕ} {x : ℤ} (hlow : -(256 ^ width : ℕ) ≤ x * 2)
    (hhigh : x * 2 < (256 ^ width : ℕ)) : intOf (intBytes width x) = x := by
  have hpos : (0 : ℤ) < (256 ^ width : ℕ) := by positivity
  have hnonneg : 0 ≤ x % (256 ^ width : ℕ) := Int.emod_nonneg x hpos.ne'
  have hlt : (x % (256 ^ width : ℕ)).toNat < 256 ^ width := by
    have hmod := Int.emod_lt_of_pos x hpos
    omega
  calc
    _ = Int.bmod ((x % (256 ^ width : ℕ)).toNat : ℤ) (256 ^ width) := by
      rw [intOf, intBytes_length, intBytes, ofDigits_leBytes, Nat.mod_eq_of_lt hlt]
    _ = Int.bmod x (256 ^ width) := by rw [Int.toNat_of_nonneg hnonneg, Int.emod_bmod]
    _ = x := Int.bmod_eq_of_le_mul_two hlow hhigh

/-- What stands in so many bytes as an unsigned number. -/
def natOf (bytes : List UInt8) : ℕ := Nat.ofDigits 256 (bytes.map UInt8.toNat)

theorem natOf_leBytes {width n : ℕ} (h : n < 256 ^ width) : natOf (leBytes width n) = n := by
  rw [natOf, ofDigits_leBytes, Nat.mod_eq_of_lt h]

/-! ## Structures -/

/-- An unsigned field of so many bytes. -/
def word (width : ℕ) : Reader UInt8 ℕ := natOf <$> fread (List.replicate width 0)

theorem word_reads {width n : ℕ} (h : n < 256 ^ width) : Reads (word width) (leBytes width n) n := by
  have hlength : (leBytes width n).length = (List.replicate width (0 : UInt8)).length := by
    rw [leBytes_length, List.length_replicate]
  have hread := (fread_reads hlength).map natOf
  rwa [natOf_leBytes h] at hread

/-- `fread` of a structure: its memory is filled, and `parse` says what the fields are. -/
def readStruct {τ α : Type} (parse : Reader τ α) (memory : List τ) : Reader τ α := do
  let filled ← fread memory
  StateT.lift (parse.run' filled)

theorem readStruct_reads {τ α : Type} {parse : Reader τ α} {memory written : List τ} {a : α}
    (h : Reads parse written a) (hlength : written.length = memory.length) :
    Reads (readStruct parse memory) written a := by
  have hparse : Reads (StateT.lift (parse.run' written) : Reader τ α) [] a := by
    intro rest
    have hwhole : parse.run' written = some a :=
      calc
        parse.run' written = Prod.fst <$> parse.run written := rfl
        _ = some a := by rw [h.whole]; rfl
    rw [hwhole]
    rfl
  have hread : Reads (readStruct parse memory) (written ++ []) a :=
    (fread_reads hlength).bind hparse
  rwa [List.append_nil] at hread

/-- `fseek` from where the stream is. -/
def skip {τ : Type} (n : ℕ) : Reader τ Unit := fun file ↦ some ((), file.drop n)

/-! ## Arrays -/

/-- The blocks of a stream of items of one length are the items. -/
theorem blocks_flatMap {σ τ : Type} {n : ℕ} (hn : 0 < n) {write : σ → List τ}
    (hwrite : ∀ a, (write a).length = n) (l : List σ) : blocks n (l.flatMap write) = l.map write := by
  induction l with
  | nil => exact blocks_of_length_lt hn
  | cons a l ih =>
      have hone : (write a).length = 1 * n := by rw [hwrite, Nat.one_mul]
      rw [List.flatMap_cons, blocks_append_of_length hn hone, ih,
        blocks_of_length_eq hn (hwrite a)]
      rfl

theorem length_flatMap_const {σ τ : Type} {n : ℕ} {write : σ → List τ}
    (hwrite : ∀ a, (write a).length = n) (l : List σ) :
    (l.flatMap write).length = l.length * n := by
  simp [List.length_flatMap, hwrite]

/-- What is made of the items, and the items of it again. -/
theorem map_map_back {σ τ : Type} {f : σ → τ} {g : τ → σ} {l : List σ}
    (h : ∀ a ∈ l, g (f a) = a) : (l.map f).map g = l := by
  calc
    (l.map f).map g = l.map fun a ↦ g (f a) := List.map_map
    _ = l.map fun a ↦ a := List.map_congr_left h
    _ = l := List.map_id' l

/-- A whole array at once: its cells are of `n` bytes, and `ofCell` says what stands in one. -/
def readArray {σ τ : Type} (n : ℕ) (ofCell : List τ → σ) (array : List τ) : Reader τ (List σ) :=
  (fun bytes ↦ (blocks n bytes).map ofCell) <$> fread array

theorem readArray_reads {σ τ : Type} {n : ℕ} (hn : 0 < n) {ofCell : List τ → σ}
    {write : σ → List τ} {array : List τ} {l : List σ} (hwrite : ∀ a, (write a).length = n)
    (harray : array.length = l.length * n) (hcell : ∀ a ∈ l, ofCell (write a) = a) :
    Reads (readArray n ofCell array) (l.flatMap write) l := by
  have hlength : (l.flatMap write).length = array.length := by
    rw [length_flatMap_const hwrite, harray]
  have hcells : (blocks n (l.flatMap write)).map ofCell = l := by
    rw [blocks_flatMap hn hwrite, map_map_back hcell]
  have hread := (fread_reads hlength).map fun bytes ↦ (blocks n bytes).map ofCell
  rwa [hcells] at hread

end Vsys.Io
