import Mathlib.Data.List.Induction
import Mathlib.Logic.Function.Basic
import Vsys.Stream.Slots
import Vsys.Trace.Run

/-!
# Dictionaries

`felib/dictionary.cpp` keeps keys, values and the hash codes of the keys in three arrays, which are
doubled when they are full.  A free slot has no key.  After any calls the dictionary is the map that
the calls describe, and it has grown only when it was full.

A string is the list of its characters, which are bytes.  Memory does not run out.
-/

namespace Vsys.Felib

open Vsys.Stream Vsys.Trace

/-- A value of a character, as `(unsigned)` makes it of a signed `char`. -/
def unsignedChar (c : Char) : UInt32 :=
  if c.toNat < 128 then UInt32.ofNat c.toNat else UInt32.ofNat (0xFFFFFF00 + c.toNat)

/-- `dictionary_hash`. -/
def dictionaryHash (key : List Char) : UInt32 :=
  let hash := key.foldl (fun hash c ↦
    let hash := hash + unsignedChar c
    let hash := hash + hash <<< 10
    hash ^^^ hash >>> 6) 0
  let hash := hash + hash <<< 3
  let hash := hash ^^^ hash >>> 11
  hash + hash <<< 15

/-- One index of `key`, `val` and `hash`. -/
structure Slot where
  key : Option (List Char)
  val : Option (List Char)
  hash : UInt32
  deriving DecidableEq

/-- What `calloc` leaves. -/
def Slot.free : Slot := { key := none, val := none, hash := 0 }

/-- The comparisons of the loops. -/
def Slot.matches (s : Slot) (hash : UInt32) (key : List Char) : Bool :=
  s.key.isSome && (hash == s.hash && s.key == some key)

/-- `dictionary`; `size` is the number of slots. -/
structure Dictionary where
  n : ℕ
  slots : List Slot

/-- `DICTMINSZ`. -/
def dictMinSize : ℕ := 128

namespace Dictionary

/-- `dictionary_new`. -/
def new (size : ℕ) : Dictionary where
  n := 0
  slots := List.replicate (if size < dictMinSize then dictMinSize else size) .free

/-- `dictionary_get`, up to the default: the value of a key that is found, which may be `NULL`. -/
def find (d : Dictionary) (key : List Char) : Option (Option (List Char)) :=
  (d.slots.find? fun s ↦ s.matches (dictionaryHash key) key).map Slot.val

/-- `dictionary_get`. -/
def get (d : Dictionary) (key : List Char) (default : Option (List Char)) : Option (List Char) :=
  (d.find key).getD default

/-- The index of the key. -/
def index (d : Dictionary) (key : List Char) : ℕ :=
  d.slots.findIdx fun s ↦ s.matches (dictionaryHash key) key

/-- The arrays doubled, if they are full. -/
def grow (d : Dictionary) : List Slot :=
  if d.n = d.slots.length then d.slots ++ List.replicate d.slots.length .free else d.slots

/-- `dictionary_set`. -/
def set (d : Dictionary) (key : List Char) (val : Option (List Char)) : Dictionary :=
  if 0 < d.n ∧ d.index key < d.slots.length then
    { d with slots := d.slots.modify (d.index key) fun s ↦ { s with val := val } }
  else
    { n := d.n + 1
      slots := d.grow.set (d.grow.findIdx fun s ↦ s.key.isNone)
        { key := some key, val := val, hash := dictionaryHash key } }

/-- `dictionary_unset`. -/
def unset (d : Dictionary) (key : List Char) : Dictionary :=
  if d.index key < d.slots.length then
    { n := d.n - 1, slots := d.slots.set (d.index key) .free }
  else d

end Dictionary

/-! ## The map -/

/-- The slot as an entry of the map. -/
def Slot.entry (s : Slot) : Option (List Char × Option (List Char)) := s.key.map (·, s.val)

/-- The map: a key that is there has a value or `NULL`. -/
abbrev Entries := List Char → Option (Option (List Char))

namespace Dictionary

def entries (d : Dictionary) : List (Option (List Char × Option (List Char))) :=
  d.slots.map Slot.entry

/-- The dictionary holds the map. -/
structure Holds (d : Dictionary) (m : Entries) : Prop where
  hash_eq : ∀ s ∈ d.slots, ∀ key, s.key = some key → s.hash = dictionaryHash key
  nodup : (slotKeys d.entries).Nodup
  n_eq : d.n = (slotKeys d.entries).length
  size_pos : 0 < d.slots.length
  lookup_eq : ∀ key, slotsLookup d.entries key = m key

variable {d : Dictionary} {m : Entries} {key : List Char}

theorem matches_iff {s : Slot} (h : ∀ key, s.key = some key → s.hash = dictionaryHash key) :
    s.matches (dictionaryHash key) key = true ↔ s.key = some key := by
  rw [Slot.matches, Bool.and_eq_true, Bool.and_eq_true, beq_iff_eq, beq_iff_eq]
  constructor
  · exact fun h ↦ h.2.2
  · intro hkey
    exact ⟨by rw [hkey]; rfl, (h key hkey).symm, hkey⟩

theorem find_slots {slots : List Slot}
    (h : ∀ s ∈ slots, ∀ key, s.key = some key → s.hash = dictionaryHash key) (key : List Char) :
    (slots.find? fun s ↦ s.matches (dictionaryHash key) key).map Slot.val =
      slotsLookup (slots.map Slot.entry) key := by
  induction slots with
  | nil => rfl
  | cons s slots ih =>
      have hs : s.matches (dictionaryHash key) key = true ↔ s.key = some key :=
        matches_iff (h s List.mem_cons_self)
      have hrest := ih fun s hs ↦ h s (List.mem_cons_of_mem _ hs)
      rw [List.find?_cons, List.map_cons, slotsLookup, List.findSome?_cons]
      by_cases hkey : s.key = some key
      · have hvalue : slotValue key s.entry = some s.val := by
          rw [Slot.entry, hkey]
          exact if_pos rfl
        rw [hs.mpr hkey, hvalue]
        rfl
      · rw [Bool.eq_false_iff.mpr fun h ↦ hkey (hs.mp h)]
        have hnone : slotValue key s.entry = none := by
          rw [Slot.entry]
          cases hk : s.key with
          | none => rfl
          | some k =>
              refine if_neg fun heq ↦ hkey ?_
              rw [hk]
              exact congrArg some heq
        rw [hnone]
        exact hrest

/-- **`dictionary_get`** looks up. -/
theorem Holds.find_eq (h : d.Holds m) (key : List Char) : d.find key = m key :=
  (find_slots h.hash_eq key).trans (h.lookup_eq key)

/-- The map decides how many keys there are. -/
theorem Holds.n_unique {d' : Dictionary} (h : d.Holds m) (h' : d'.Holds m) : d.n = d'.n := by
  rw [h.n_eq, h'.n_eq]
  apply List.Perm.length_eq
  rw [List.perm_ext_iff_of_nodup h.nodup h'.nodup]
  intro key
  rw [← not_iff_not, ← slotsLookup_eq_none_iff, ← slotsLookup_eq_none_iff, h.lookup_eq,
    h'.lookup_eq]

theorem slotKeys_entries_nil_of_forall {slots : List Slot} (h : ∀ s ∈ slots, s.key = none) :
    slotKeys (slots.map Slot.entry) = [] := by
  rw [slotKeys, List.filterMap_eq_nil_iff]
  intro slot hslot
  obtain ⟨s, hs, rfl⟩ := List.mem_map.mp hslot
  rw [Slot.entry, h s hs]
  rfl

/-- **`dictionary_new`** is empty. -/
theorem holds_new (size : ℕ) : (new size).Holds fun _ ↦ none := by
  have hfree : ∀ s ∈ (new size).slots, s = .free := fun s hs ↦ List.eq_of_mem_replicate hs
  have hkeys : slotKeys (new size).entries = [] :=
    slotKeys_entries_nil_of_forall fun s hs ↦ by rw [hfree s hs]; rfl
  refine ⟨fun s hs key hkey ↦ ?_, ?_, ?_, ?_, fun key ↦ ?_⟩
  · rw [hfree s hs] at hkey
    exact absurd hkey (by simp [Slot.free])
  · rw [hkeys]
    exact List.nodup_nil
  · rw [hkeys]
    rfl
  · rw [new, List.length_replicate]
    split_ifs with hsize
    · decide
    · exact Nat.lt_of_lt_of_le (by decide) (Nat.not_lt.mp hsize)
  · rw [slotsLookup_eq_none_iff, hkeys]
    exact List.not_mem_nil

/-! ## The slot that a call changes -/

/-- The key has been found, in a slot with others before and behind it. -/
theorem exists_split (h : d.Holds m) (hin : d.index key < d.slots.length) :
    ∃ first s later, d.slots = first ++ s :: later ∧ s.key = some key ∧
      first.length = d.index key := by
  have hsplit := List.take_append_drop (d.index key) d.slots
  rw [List.drop_eq_getElem_cons hin] at hsplit
  refine ⟨_, _, _, hsplit.symm, ?_, List.length_take_of_le (Nat.le_of_lt hin)⟩
  have hmatch : (d.slots[d.index key]).matches (dictionaryHash key) key = true :=
    List.findIdx_getElem (w := hin)
  exact (matches_iff (h.hash_eq _ (List.getElem_mem hin))).mp hmatch

theorem notMem_of_index (h : d.Holds m) (hout : ¬ d.index key < d.slots.length) :
    key ∉ slotKeys d.entries := by
  rw [← slotsLookup_eq_none_iff, entries, ← find_slots h.hash_eq, Option.map_eq_none_iff,
    List.find?_eq_none]
  intro s hs hmatch
  exact hout (List.findIdx_lt_length_of_exists ⟨s, hs, hmatch⟩)

theorem set_middle {α : Type*} {first later : List α} {x y : α} {i : ℕ} (hi : first.length = i) :
    (first ++ x :: later).set i y = first ++ y :: later := by
  rw [← hi, List.set_append_right _ _ (Nat.le_refl _), Nat.sub_self]
  rfl

theorem modify_middle {α : Type*} {first later : List α} {x : α} {i : ℕ} {f : α → α}
    (hi : first.length = i) : (first ++ x :: later).modify i f = first ++ f x :: later := by
  subst hi
  induction first with
  | nil => rfl
  | cons y first ih => exact congrArg (y :: ·) ih

theorem forall_mem_middle {α : Type*} {first later : List α} {x y : α} {p : α → Prop}
    (h : ∀ z ∈ first ++ x :: later, p z) (hy : p y) : ∀ z ∈ first ++ y :: later, p z := by
  intro z hz
  rcases List.mem_append.mp hz with hmem | hmem
  · exact h z (List.mem_append_left _ hmem)
  · rcases List.mem_cons.mp hmem with rfl | hmem
    · exact hy
    · exact h z (List.mem_append_right _ (List.mem_cons_of_mem _ hmem))

theorem entries_middle {first later : List Slot} {s : Slot} :
    (first ++ s :: later).map Slot.entry =
      first.map Slot.entry ++ s.entry :: later.map Slot.entry := List.map_append

theorem entry_of_key {s : Slot} (h : s.key = some key) : s.entry = some (key, s.val) := by
  rw [Slot.entry, h]
  rfl

/-! ## Growing -/

theorem grow_eq (d : Dictionary) : ∃ more, d.grow = d.slots ++ List.replicate more .free := by
  rw [grow]
  split_ifs
  · exact ⟨_, rfl⟩
  · exact ⟨0, (List.append_nil _).symm⟩

theorem slotKeys_grow (d : Dictionary) :
    slotKeys (d.grow.map Slot.entry) = slotKeys d.entries := by
  obtain ⟨more, hgrow⟩ := d.grow_eq
  have hfree : slotKeys ((List.replicate more Slot.free).map Slot.entry) = [] :=
    slotKeys_entries_nil_of_forall fun s hs ↦ by rw [List.eq_of_mem_replicate hs]; rfl
  rw [hgrow, List.map_append, slotKeys, List.filterMap_append]
  exact (congrArg (slotKeys d.entries ++ ·) hfree).trans (List.append_nil _)

theorem slotsLookup_grow (d : Dictionary) (key : List Char) :
    slotsLookup (d.grow.map Slot.entry) key = slotsLookup d.entries key := by
  obtain ⟨more, hgrow⟩ := d.grow_eq
  have hfree : slotsLookup ((List.replicate more Slot.free).map Slot.entry) key = none := by
    rw [slotsLookup_eq_none_iff, slotKeys_entries_nil_of_forall]
    · exact List.not_mem_nil
    · exact fun s hs ↦ by rw [List.eq_of_mem_replicate hs]; rfl
  rw [hgrow, List.map_append, slotsLookup, List.findSome?_append]
  exact (congrArg (Option.or _) hfree).trans (Option.or_none)

theorem hash_eq_grow (h : d.Holds m) :
    ∀ s ∈ d.grow, ∀ key, s.key = some key → s.hash = dictionaryHash key := by
  obtain ⟨more, hgrow⟩ := d.grow_eq
  intro s hs key hkey
  rw [hgrow] at hs
  rcases List.mem_append.mp hs with hold | hnew
  · exact h.hash_eq s hold key hkey
  · rw [List.eq_of_mem_replicate hnew] at hkey
    exact absurd hkey (by simp [Slot.free])

theorem length_slotKeys_le (slots : List Slot) :
    (slotKeys (slots.map Slot.entry)).length ≤ slots.length := by
  have h := List.length_filterMap_le (Option.map Prod.fst) (slots.map Slot.entry)
  rwa [List.length_map] at h

theorem Holds.n_le (h : d.Holds m) : d.n ≤ d.slots.length :=
  h.n_eq ▸ length_slotKeys_le d.slots

theorem Holds.n_lt_grow (h : d.Holds m) : d.n < d.grow.length := by
  have hle := h.n_le
  have hpos := h.size_pos
  rw [grow]
  split_ifs with hfull
  · rw [List.length_append, List.length_replicate]
    omega
  · omega

theorem length_slotKeys_of_full {slots : List Slot} (h : ∀ s ∈ slots, s.key.isNone = false) :
    (slotKeys (slots.map Slot.entry)).length = slots.length := by
  induction slots with
  | nil => rfl
  | cons s slots ih =>
      have hs := h s List.mem_cons_self
      obtain ⟨key, hkey⟩ := Option.isSome_iff_exists.mp (by simpa using hs)
      have hrest := ih fun s hs ↦ h s (List.mem_cons_of_mem _ hs)
      rw [List.map_cons, entry_of_key hkey, slotKeys, List.filterMap_cons, Option.map_some,
        List.length_cons, List.length_cons]
      exact congrArg (· + 1) hrest

/-- After growing there is a free slot. -/
theorem exists_free (h : d.Holds m) :
    ∃ first s later, d.grow = first ++ s :: later ∧ s.key = none ∧
      first.length = d.grow.findIdx fun s ↦ s.key.isNone := by
  have hin : (d.grow.findIdx fun s ↦ s.key.isNone) < d.grow.length := by
    apply List.findIdx_lt_length_of_exists
    by_contra hfull
    have hnone : ∀ s ∈ d.grow, s.key.isNone = false := fun s hs ↦ by
      by_contra hfree
      exact hfull ⟨s, hs, by simpa using hfree⟩
    have hkeys := length_slotKeys_of_full hnone
    rw [slotKeys_grow, ← h.n_eq] at hkeys
    exact absurd hkeys (Nat.ne_of_lt h.n_lt_grow)
  have hsplit := List.take_append_drop (d.grow.findIdx fun s ↦ s.key.isNone) d.grow
  rw [List.drop_eq_getElem_cons hin] at hsplit
  refine ⟨_, _, _, hsplit.symm, ?_, List.length_take_of_le (Nat.le_of_lt hin)⟩
  have hfound := List.findIdx_getElem (w := hin)
  simpa using hfound

/-! ## The calls -/

variable (val : Option (List Char))

/-- A key that is there gets another value. -/
theorem Holds.replace (h : d.Holds m) (hin : d.index key < d.slots.length) :
    Holds { d with slots := d.slots.modify (d.index key) fun s ↦ { s with val := val } }
      (Function.update m key (some val)) := by
  obtain ⟨first, s, later, hslots, hkey, hlength⟩ := exists_split h hin
  have hentries : d.entries =
      first.map Slot.entry ++ some (key, s.val) :: later.map Slot.entry := by
    rw [entries, hslots, entries_middle, entry_of_key hkey]
  have hmodified : d.slots.modify (d.index key) (fun s ↦ { s with val := val }) =
      first ++ { s with val := val } :: later := by
    rw [hslots, modify_middle hlength]
  have hnew : (first ++ { s with val := val } :: later).map Slot.entry =
      first.map Slot.entry ++ some (key, val) :: later.map Slot.entry := by
    rw [entries_middle, entry_of_key (s := { s with val := val }) hkey]
  have hnodup := hentries ▸ h.nodup
  rw [hmodified]
  have hhash := hslots ▸ h.hash_eq
  refine ⟨forall_mem_middle hhash ?_, ?_, ?_, ?_, fun k ↦ ?_⟩
  · exact hhash s (List.mem_append_right _ List.mem_cons_self)
  · rw [entries, hnew]
    exact nodup_replace hnodup val
  · have hcount := h.n_eq
    rw [hentries, slotKeys_append] at hcount
    rw [entries, hnew, slotKeys_append]
    exact hcount
  · apply Nat.lt_of_lt_of_eq h.size_pos
    rw [hslots, List.length_append, List.length_append]
    rfl
  · rw [entries, hnew, slotsLookup_replace hnodup, ← hentries, h.lookup_eq, Function.update_apply]

/-- A new key takes a free slot. -/
theorem Holds.insert (h : d.Holds m) (hout : ¬ d.index key < d.slots.length) :
    Holds { n := d.n + 1
            slots := d.grow.set (d.grow.findIdx fun s ↦ s.key.isNone)
              { key := some key, val := val, hash := dictionaryHash key } }
      (Function.update m key (some val)) := by
  obtain ⟨first, s, later, hslots, hkey, hlength⟩ := exists_free h
  have hfree : s.entry = none := by rw [Slot.entry, hkey]; rfl
  have hentries : d.grow.map Slot.entry =
      first.map Slot.entry ++ none :: later.map Slot.entry := by
    rw [hslots, entries_middle, hfree]
  have hset : d.grow.set (d.grow.findIdx fun s ↦ s.key.isNone)
      { key := some key, val := val, hash := dictionaryHash key } =
      first ++ { key := some key, val := val, hash := dictionaryHash key } :: later := by
    rw [← hlength, hslots, set_middle rfl]
  have hnew : (first ++ { key := some key, val := val, hash := dictionaryHash key } ::
      later).map Slot.entry = first.map Slot.entry ++ some (key, val) :: later.map Slot.entry :=
    entries_middle
  have hkeys : slotKeys (first.map Slot.entry ++ none :: later.map Slot.entry) =
      slotKeys d.entries := hentries ▸ slotKeys_grow d
  have hnotMem : key ∉ slotKeys (first.map Slot.entry ++ none :: later.map Slot.entry) :=
    hkeys ▸ notMem_of_index h hout
  rw [hset]
  have hhash := hslots ▸ hash_eq_grow h
  refine ⟨forall_mem_middle hhash ?_, ?_, ?_, ?_, fun k ↦ ?_⟩
  · intro k hk
    exact congrArg dictionaryHash (Option.some.inj hk)
  · rw [entries, hnew]
    exact nodup_insert hnotMem (hkeys ▸ h.nodup) val
  · have hcount := h.n_eq
    rw [← hkeys, slotKeys_append] at hcount
    rw [entries, hnew, slotKeys_append, List.length_append]
    rw [List.length_append] at hcount
    exact congrArg (· + 1) hcount
  · rw [List.length_append]
    exact Nat.lt_of_lt_of_le (Nat.succ_pos _) (Nat.le_add_left _ _)
  · rw [entries, hnew, slotsLookup_insert hnotMem, ← hentries, slotsLookup_grow, h.lookup_eq,
      Function.update_apply]

/-- **`dictionary_set`.** -/
theorem Holds.set (h : d.Holds m) (key : List Char) :
    (d.set key val).Holds (Function.update m key (some val)) := by
  rw [Dictionary.set]
  split_ifs with hfound
  · exact h.replace val hfound.2
  · by_cases hin : d.index key < d.slots.length
    · -- an empty dictionary holds no key
      obtain ⟨first, s, later, hslots, hkey, -⟩ := exists_split h hin
      have hcount := h.n_eq
      rw [entries, hslots, entries_middle, entry_of_key hkey, slotKeys_append,
        List.length_append] at hcount
      exact absurd ⟨by rw [hcount]; exact Nat.lt_of_lt_of_le (Nat.succ_pos _) (Nat.le_add_left _ _),
        hin⟩ hfound
    · exact h.insert val hin

/-- **`dictionary_unset`.** -/
theorem Holds.unset (h : d.Holds m) (key : List Char) :
    (d.unset key).Holds (Function.update m key none) := by
  rw [Dictionary.unset]
  split_ifs with hin
  · obtain ⟨first, s, later, hslots, hkey, hlength⟩ := exists_split h hin
    have hentries : d.entries =
        first.map Slot.entry ++ some (key, s.val) :: later.map Slot.entry := by
      rw [entries, hslots, entries_middle, entry_of_key hkey]
    have hset : d.slots.set (d.index key) .free = first ++ .free :: later := by
      rw [hslots, set_middle hlength]
    have hnew : (first ++ Slot.free :: later).map Slot.entry =
        first.map Slot.entry ++ none :: later.map Slot.entry := entries_middle
    have hnodup := hentries ▸ h.nodup
    rw [hset]
    have hhash := hslots ▸ h.hash_eq
    refine ⟨forall_mem_middle hhash ?_, ?_, ?_, ?_, fun k ↦ ?_⟩
    · intro k hk
      exact absurd hk (by simp [Slot.free])
    · rw [entries, hnew]
      exact nodup_erase hnodup
    · have hcount := h.n_eq
      rw [hentries, slotKeys_append, List.length_append] at hcount
      rw [entries, hnew, slotKeys_append, List.length_append]
      dsimp only
      rw [hcount]
      rfl
    · rw [List.length_append]
      exact Nat.lt_of_lt_of_le (Nat.succ_pos _) (Nat.le_add_left _ _)
    · rw [entries, hnew, slotsLookup_erase hnodup, ← hentries, h.lookup_eq, Function.update_apply]
  · have hnone : m key = none := by
      rw [← h.lookup_eq, slotsLookup_eq_none_iff]
      exact notMem_of_index h hin
    rwa [← hnone, Function.update_eq_self]

end Dictionary

/-! ## Runs -/

/-- A call that changes the dictionary. -/
inductive DictOp
  | set (key : List Char) (val : Option (List Char))
  | unset (key : List Char)

/-- The effect of a call. -/
def DictOp.apply (d : Dictionary) : DictOp → Dictionary
  | .set key val => d.set key val
  | .unset key => d.unset key

/-- What it means for the map. -/
def DictOp.meaning (m : Entries) : DictOp → Entries
  | .set key val => Function.update m key (some val)
  | .unset key => Function.update m key none

namespace Dictionary

theorem Holds.apply {d : Dictionary} {m : Entries} (h : d.Holds m) (op : DictOp) :
    (op.apply d).Holds (op.meaning m) := by
  cases op with
  | set key val => exact h.set val key
  | unset key => exact h.unset key

theorem holds_run (size : ℕ) (ops : List DictOp) :
    (run DictOp.apply (new size) ops).Holds (run DictOp.meaning (fun _ ↦ none) ops) := by
  induction ops using List.reverseRecOn with
  | nil => exact holds_new size
  | append_singleton ops op ih =>
      rw [run_append, run_append]
      exact ih.apply op

/-- The arrays stay, or are doubled because they are full. -/
theorem length_apply {d : Dictionary} (op : DictOp) :
    (op.apply d).slots.length = d.slots.length ∨
      (op.apply d).slots.length = 2 * d.slots.length ∧ d.n = d.slots.length ∧
        (op.apply d).n = d.n + 1 := by
  cases op with
  | set key val =>
      rw [DictOp.apply, Dictionary.set]
      split_ifs
      · exact .inl (List.length_modify ..)
      · dsimp only
        rw [List.length_set, grow]
        split_ifs with hfull
        · refine .inr ⟨?_, hfull, rfl⟩
          rw [List.length_append, List.length_replicate, Nat.two_mul]
        · exact .inl rfl
  | unset key =>
      rw [DictOp.apply, Dictionary.unset]
      split_ifs
      · exact .inl List.length_set
      · exact .inl rfl

/-- The arrays have grown for keys that were there at some time. -/
theorem length_run (size : ℕ) (ops : List DictOp) :
    (run DictOp.apply (new size) ops).slots.length = (new size).slots.length ∨
      ∃ first, first <+: ops ∧ (run DictOp.apply (new size) ops).slots.length <
        2 * (run DictOp.apply (new size) first).n := by
  induction ops using List.reverseRecOn with
  | nil => exact .inl rfl
  | append_singleton ops op ih =>
      have hlast : run DictOp.apply (new size) (ops ++ [op]) =
          op.apply (run DictOp.apply (new size) ops) := run_append ..
      rw [hlast]
      rcases length_apply (d := run DictOp.apply (new size) ops) op with hsame | hdouble
      · rw [hsame]
        rcases ih with hinitial | ⟨first, hfirst, hlt⟩
        · exact .inl hinitial
        · exact .inr ⟨first, hfirst.trans (List.prefix_append ops [op]), hlt⟩
      · obtain ⟨hlength, hfull, hn⟩ := hdouble
        refine .inr ⟨ops ++ [op], List.prefix_refl _, ?_⟩
        rw [hlast, hlength, hn, hfull]
        omega

/-- **Dictionaries are maps.** After any calls, looking up gives what was set last, `n` is the
number of the keys, they fit, and the arrays have grown for keys only. -/
theorem run_dictionary (size : ℕ) (ops : List DictOp) :
    (∀ key, (run DictOp.apply (new size) ops).find key =
        run DictOp.meaning (fun _ ↦ none) ops key) ∧
      (∃ keys : List (List Char), keys.Nodup ∧
        keys.length = (run DictOp.apply (new size) ops).n ∧
        ∀ key, key ∈ keys ↔ run DictOp.meaning (fun _ ↦ none) ops key ≠ none) ∧
      (run DictOp.apply (new size) ops).n ≤ (run DictOp.apply (new size) ops).slots.length ∧
      ((run DictOp.apply (new size) ops).slots.length = (new size).slots.length ∨
        ∃ first, first <+: ops ∧ (run DictOp.apply (new size) ops).slots.length <
          2 * (run DictOp.apply (new size) first).n) := by
  have h := holds_run size ops
  refine ⟨h.find_eq, ⟨_, h.nodup, h.n_eq.symm, fun key ↦ ?_⟩, h.n_le, length_run size ops⟩
  rw [← h.lookup_eq, Ne, slotsLookup_eq_none_iff, not_not]

end Dictionary

end Vsys.Felib
