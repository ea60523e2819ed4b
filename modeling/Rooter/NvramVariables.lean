import Mathlib.Data.List.Induction
import Rooter.Nvram

/-!
# Variables in memory

The hash table of `nvram.c` as the program keeps it: a list of tuples for each value of the hash
function, and the list of dead tuples.  `nvram_set` gives a tuple its new value in place, as
`_nvram_realloc` never returns another tuple; a new tuple goes to the front of its list.
`nvram_unset` takes the first tuple with the name out of its list.  Memory is always allocated.

The lists are those of a chained table with the same operations, and the table is a finite map.
-/

namespace Rooter.Nvram

open List ChainedTable Function

/-! ### The lists -/

/-- `nvram_hash` and `nvram_dead`. -/
structure Tuples (d : Device) where
  hash : Fin 257 → List (Bytes × Bytes)
  dead : List (Bytes × Bytes)

def setTuple (name value : Bytes) : List (Bytes × Bytes) → Option (List (Bytes × Bytes))
  | [] => none
  | t :: c => if t.1 = name then some ((t.1, value) :: c) else (setTuple name value c).map (t :: ·)

def unlink (name : Bytes) :
    List (Bytes × Bytes) → Option ((Bytes × Bytes) × List (Bytes × Bytes))
  | [] => none
  | t :: c => if t.1 = name then some (t, c) else (unlink name c).map fun (u, c) => (u, t :: c)

inductive Call where
  | set (name value : Bytes)
  | unset (name : Bytes)

namespace Tuples

variable {d : Device}

def empty : Tuples d := ⟨fun _ => [], []⟩

def nvramGet (s : Tuples d) (name : Bytes) : Option Bytes :=
  ((s.hash (d.index name)).find? fun t => t.1 = name).map Prod.snd

/-- `room` is `h->length - h->offset`. -/
def nvramSet (room : Nat) (s : Tuples d) (name value : Bytes) : Tuples d × Int :=
  let i := d.index name
  if room < value.length + 1 then (s, -12)
  else
    match setTuple name value (s.hash i) with
    | some c => ({ s with hash := update s.hash i c }, 0)
    | none => ({ s with hash := update s.hash i ((name, value) :: s.hash i) }, 0)

def nvramUnset (s : Tuples d) (name : Bytes) : Tuples d :=
  match unlink name (s.hash (d.index name)) with
  | some (t, c) => ⟨update s.hash (d.index name) c, t :: s.dead⟩
  | none => s

def nvramGetall (s : Tuples d) : List (Bytes × Bytes) :=
  ((finRange 257).map s.hash).flatten.reverse

def call (room : Nat) (s : Tuples d) : Call → Tuples d
  | .set name value => (s.nvramSet room name value).1
  | .unset name => s.nvramUnset name

variable (d) in
def run (room : Nat) (calls : List Call) : Tuples d := calls.foldl (call room) empty

end Tuples

def Call.touches (room : Nat) (name : Bytes) : Call → Bool
  | .set name' value => name' = name ∧ value.length + 1 ≤ room
  | .unset name' => name' = name

/-- The value of the last set that was not refused, unless an unset follows. -/
def lastSet (room : Nat) (name : Bytes) (calls : List Call) : Option Bytes :=
  match (calls.filter (Call.touches room name)).getLast? with
  | some (.set _ value) => some value
  | _ => none

/-! ### The lists as a chained table -/

section Chains

variable {name value : Bytes} {c : List (Bytes × Bytes)}

theorem setTuple_of_notMem (h : name ∉ c.map Prod.fst) : setTuple name value c = none := by
  induction c with
  | nil => rfl
  | cons t c ih =>
    rw [map_cons, mem_cons, not_or] at h
    rw [setTuple, if_neg (Ne.symm h.1), ih h.2]
    rfl

theorem setTuple_of_mem (hnodup : (c.map Prod.fst).Nodup) (h : name ∈ c.map Prod.fst) :
    setTuple name value c = some (ChainedTable.replace name value c) := by
  induction c with
  | nil => cases h
  | cons t c ih =>
    rw [map_cons, nodup_cons] at hnodup
    rw [setTuple, ChainedTable.replace, map_cons]
    by_cases ht : t.1 = name
    · have hrest : c.map (fun e => if e.1 = name then (name, value) else e) = c := by
        refine (map_congr_left fun e he => if_neg fun hname => hnodup.1 ?_).trans (map_id c)
        rw [ht, ← hname]
        exact mem_map_of_mem he
      rw [if_pos ht, if_pos ht, hrest, ht]
    · rw [map_cons, mem_cons] at h
      rw [if_neg ht, if_neg ht, ih hnodup.2 (h.resolve_left (Ne.symm ht))]
      rfl

theorem unlink_of_notMem (h : name ∉ c.map Prod.fst) :
    unlink name c = none ∧ ChainedTable.erase name c = c := by
  constructor
  · induction c with
    | nil => rfl
    | cons t c ih =>
      rw [map_cons, mem_cons, not_or] at h
      rw [unlink, if_neg (Ne.symm h.1), ih h.2]
      rfl
  · refine filter_eq_self.mpr fun t ht => decide_eq_true fun hname => h ?_
    rw [← hname]
    exact mem_map_of_mem ht

theorem unlink_of_mem (hnodup : (c.map Prod.fst).Nodup) (h : name ∈ c.map Prod.fst) :
    ∃ t, unlink name c = some (t, ChainedTable.erase name c) := by
  induction c with
  | nil => cases h
  | cons t c ih =>
    rw [map_cons, nodup_cons] at hnodup
    rw [unlink]
    by_cases ht : t.1 = name
    · have hrest := (unlink_of_notMem (ht ▸ hnodup.1)).2
      rw [if_pos ht, ChainedTable.erase, filter_cons_of_neg (by simpa using ht)]
      exact ⟨t, congrArg (fun c => some (t, c)) hrest.symm⟩
    · rw [map_cons, mem_cons] at h
      obtain ⟨u, hu⟩ := ih hnodup.2 (h.resolve_left (Ne.symm ht))
      have hkept : ChainedTable.erase name (t :: c) = t :: ChainedTable.erase name c :=
        filter_cons_of_pos (by simpa using ht)
      rw [if_neg ht, hu, hkept]
      exact ⟨u, rfl⟩

end Chains

namespace Tuples

variable {d : Device} {room : Nat} {s : Tuples d} {t : Table Bytes d.index}

theorem hash_nvramSet (h : s.hash = t.chain) {name value : Bytes}
    (hroom : value.length + 1 ≤ room) :
    (s.nvramSet room name value).1.hash = (t.put name value).chain := by
  unfold nvramSet Table.put ChainedTable.insert
  dsimp only
  rw [if_neg (by omega), h]
  by_cases hname : name ∈ (t.chain (d.index name)).map Prod.fst
  · rw [setTuple_of_mem (t.nodup _) hname, if_pos (any_iff.mpr hname)]
  · rw [setTuple_of_notMem hname, if_neg fun hany => hname (any_iff.mp hany)]

theorem hash_nvramUnset (h : s.hash = t.chain) (name : Bytes) :
    (s.nvramUnset name).hash = (t.remove name).chain := by
  unfold nvramUnset Table.remove
  dsimp only
  rw [h]
  by_cases hname : name ∈ (t.chain (d.index name)).map Prod.fst
  · obtain ⟨u, hu⟩ := unlink_of_mem (t.nodup _) hname
    rw [hu]
  · obtain ⟨hnone, herase⟩ := unlink_of_notMem hname
    rw [hnone, herase, update_eq_self, h]

theorem nvramGet_eq (h : s.hash = t.chain) (name : Bytes) : s.nvramGet name = t.get name := by
  unfold nvramGet Table.get ChainedTable.lookup
  rw [h]

theorem nvramGetall_eq (h : s.hash = t.chain) : s.nvramGetall = t.entries.reverse := by
  unfold nvramGetall Table.entries Table.chains
  rw [h]

/-! ### The finite map -/

theorem lastSet_concat (name : Bytes) (calls : List Call) (a : Call) :
    lastSet room name (calls ++ [a]) =
      if a.touches room name then lastSet room name [a] else lastSet room name calls := by
  unfold lastSet
  rw [filter_append]
  by_cases ha : a.touches room name = true
  · rw [if_pos ha, filter_cons_of_pos ha, getLast?_append]
    rfl
  · rw [if_neg ha, filter_cons_of_neg ha, filter_nil, append_nil]

theorem exists_table (room : Nat) (calls : List Call) : ∃ t : Table Bytes d.index,
    (run d room calls).hash = t.chain ∧ ∀ name, t.get name = lastSet room name calls := by
  induction calls using List.reverseRecOn with
  | nil => exact ⟨Table.empty, rfl, fun _ => rfl⟩
  | append_singleton calls a ih =>
    obtain ⟨t, hhash, hget⟩ := ih
    have hrun : run d room (calls ++ [a]) = call room (run d room calls) a := by
      unfold run
      rw [foldl_append]
      rfl
    rw [hrun]
    cases a with
    | set name value =>
      by_cases hroom : value.length + 1 ≤ room
      · refine ⟨t.put name value, hash_nvramSet hhash hroom, fun name' => ?_⟩
        rw [lastSet_concat]
        by_cases hname : name = name'
        · subst hname
          rw [Table.get_put]
          simp [lastSet, Call.touches, hroom]
        · rw [Table.get_put_of_ne (Ne.symm hname), if_neg (by simp [Call.touches, hname]), hget]
      · refine ⟨t, ?_, fun name' => ?_⟩
        · rw [← hhash, call, nvramSet, if_pos (by omega)]
        · rw [lastSet_concat, if_neg (by simp [Call.touches, hroom]), hget]
    | unset name =>
      refine ⟨t.remove name, hash_nvramUnset hhash name, fun name' => ?_⟩
      rw [lastSet_concat]
      by_cases hname : name = name'
      · subst hname
        rw [Table.get_remove]
        simp [lastSet, Call.touches]
      · rw [Table.get_remove_of_ne (Ne.symm hname), if_neg (by simp [Call.touches, hname]), hget]

/-- **The variables are a finite map.**  After any calls a variable has the value of the last set
    that was not refused, a set that is refused changes nothing, and all variables are listed once.
    -/
theorem nvram_finiteMap (d : Device) (room : Nat) (calls : List Call) :
    (∀ name, (run d room calls).nvramGet name = lastSet room name calls) ∧
    (∀ name value, ((run d room calls).nvramSet room name value).2 ≠ 0 →
      room < value.length + 1 ∧
        ((run d room calls).nvramSet room name value).1 = run d room calls) ∧
    ((run d room calls).nvramGetall.map Prod.fst).Nodup ∧
    ∀ name value, (name, value) ∈ (run d room calls).nvramGetall ↔
      (run d room calls).nvramGet name = some value := by
  obtain ⟨t, hhash, hget⟩ := exists_table room calls
  refine ⟨fun name => (nvramGet_eq hhash name).trans (hget name), fun name value hne => ?_, ?_,
    fun name value => ?_⟩
  · unfold nvramSet at hne ⊢
    dsimp only at hne ⊢
    split at hne
    · next hroom => exact ⟨hroom, by rw [if_pos hroom]⟩
    · split at hne <;> exact absurd rfl hne
  · rw [nvramGetall_eq hhash, map_reverse, nodup_reverse]
    exact t.nodup_entries
  · rw [nvramGetall_eq hhash, mem_reverse, Table.mem_entries, nvramGet_eq hhash]

end Tuples

end Rooter.Nvram
