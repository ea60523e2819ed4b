import Mathlib.Data.List.FinRange

/-!
# Hash tables with chains

A table has a chain of entries for each value of `index`.  A key stands in the chain of its
index, and in a chain only once; both are part of the structure.  A value is replaced in its
place, and a new key goes to the front of its chain.

`entries` lists the chains one after the other.  A key has a value if and only if the pair of
them is in the list.
-/

namespace Rooter.ChainedTable

open List Function

variable {K V : Type} [DecidableEq K] {n : Nat}

structure Table (V : Type) (index : K → Fin n) where
  chain : Fin n → List (K × V)
  index_eq : ∀ i, ∀ e ∈ chain i, index e.1 = i
  nodup : ∀ i, ((chain i).map Prod.fst).Nodup

/-! ### One chain -/

section Chain

def lookup (k : K) (c : List (K × V)) : Option V := (c.find? fun e => e.1 = k).map Prod.snd

def replace (k : K) (v : V) (c : List (K × V)) : List (K × V) :=
  c.map fun e => if e.1 = k then (k, v) else e

def insert (k : K) (v : V) (c : List (K × V)) : List (K × V) :=
  if c.any fun e => e.1 = k then replace k v c else (k, v) :: c

def erase (k : K) (c : List (K × V)) : List (K × V) := c.filter fun e => e.1 ≠ k

variable {c : List (K × V)} {k : K} {v : V}

theorem lookup_eq_some (h : (c.map Prod.fst).Nodup) : lookup k c = some v ↔ (k, v) ∈ c := by
  induction c with
  | nil => simp [lookup]
  | cons e c ih =>
    rw [map_cons, nodup_cons] at h
    by_cases he : e.1 = k
    · have hlookup : lookup k (e :: c) = some e.2 := by
        unfold lookup
        rw [find?_cons_of_pos (by simpa using he)]
        rfl
      rw [hlookup, mem_cons]
      constructor
      · intro hv
        exact .inl (Prod.ext he.symm (Option.some.inj hv).symm)
      · rintro (hv | hv)
        · rw [← hv]
        · exact absurd (mem_map_of_mem hv) (he ▸ h.1)
    · have hlookup : lookup k (e :: c) = lookup k c := by
        unfold lookup
        rw [find?_cons_of_neg (by simpa using he)]
      rw [hlookup, ih h.2, mem_cons]
      constructor
      · exact .inr
      · rintro (rfl | hv)
        · exact absurd rfl he
        · exact hv

theorem map_fst_replace : (replace k v c).map Prod.fst = c.map Prod.fst := by
  unfold replace
  rw [map_map]
  refine map_congr_left fun e _ => ?_
  simp only [comp_apply]
  split
  next he => exact he.symm
  · rfl

theorem mem_replace {e : K × V} : e ∈ replace k v c ↔
    e.1 ≠ k ∧ e ∈ c ∨ e = (k, v) ∧ k ∈ c.map Prod.fst := by
  unfold replace
  rw [mem_map]
  constructor
  · rintro ⟨e', he', rfl⟩
    split
    next h => exact .inr ⟨rfl, h ▸ mem_map_of_mem he'⟩
    next h => exact .inl ⟨h, he'⟩
  · rintro (⟨hne, he⟩ | ⟨rfl, hk⟩)
    · exact ⟨e, he, if_neg hne⟩
    · obtain ⟨e', he', rfl⟩ := mem_map.mp hk
      exact ⟨e', he', if_pos rfl⟩

theorem any_iff : (c.any fun e => e.1 = k) = true ↔ k ∈ c.map Prod.fst := by
  simp only [any_eq_true, decide_eq_true_eq, mem_map]

theorem nodup_insert (h : (c.map Prod.fst).Nodup) : ((insert k v c).map Prod.fst).Nodup := by
  unfold insert
  split
  · rwa [map_fst_replace]
  next hk =>
    rw [any_iff] at hk
    exact nodup_cons.mpr ⟨hk, h⟩

theorem mem_insert {e : K × V} : e ∈ insert k v c ↔ e.1 ≠ k ∧ e ∈ c ∨ e = (k, v) := by
  unfold insert
  split
  next hk =>
    rw [any_iff] at hk
    rw [mem_replace]
    simp only [hk, and_true]
  next hk =>
    rw [any_iff] at hk
    rw [mem_cons]
    constructor
    · rintro (rfl | he)
      · exact .inr rfl
      · refine .inl ⟨?_, he⟩
        rintro rfl
        exact hk (mem_map_of_mem he)
    · rintro (⟨-, he⟩ | rfl)
      · exact .inr he
      · exact .inl rfl

theorem nodup_erase (h : (c.map Prod.fst).Nodup) : ((erase k c).map Prod.fst).Nodup :=
  (filter_sublist.map Prod.fst).nodup h

end Chain

/-! ### Tables -/

namespace Table

variable {index : K → Fin n}

def empty : Table V index where
  chain _ := []
  index_eq _ _ h := absurd h not_mem_nil
  nodup _ := nodup_nil

def get (t : Table V index) (k : K) : Option V := lookup k (t.chain (index k))

def put (t : Table V index) (k : K) (v : V) : Table V index where
  chain := update t.chain (index k) (insert k v (t.chain (index k)))
  index_eq i e h := by
    by_cases hi : i = index k
    · subst hi
      rw [update_self, mem_insert] at h
      rcases h with ⟨-, h⟩ | rfl
      · exact t.index_eq _ e h
      · rfl
    · rw [update_of_ne hi] at h
      exact t.index_eq i e h
  nodup i := by
    by_cases hi : i = index k
    · subst hi
      rw [update_self]
      exact nodup_insert (t.nodup _)
    · rw [update_of_ne hi]
      exact t.nodup i

def remove (t : Table V index) (k : K) : Table V index where
  chain := update t.chain (index k) (erase k (t.chain (index k)))
  index_eq i e h := by
    by_cases hi : i = index k
    · subst hi
      rw [update_self] at h
      exact t.index_eq _ e (mem_of_mem_filter h)
    · rw [update_of_ne hi] at h
      exact t.index_eq i e h
  nodup i := by
    by_cases hi : i = index k
    · subst hi
      rw [update_self]
      exact nodup_erase (t.nodup _)
    · rw [update_of_ne hi]
      exact t.nodup i

variable {t : Table V index} {k : K} {v : V}

theorem get_eq_some : t.get k = some v ↔ (k, v) ∈ t.chain (index k) :=
  lookup_eq_some (t.nodup _)

theorem mem_chain_put {i : Fin n} {e : K × V} : e ∈ (t.put k v).chain i ↔
    e.1 ≠ k ∧ e ∈ t.chain i ∨ e = (k, v) ∧ i = index k := by
  by_cases hi : i = index k
  · rw [show (t.put k v).chain i = insert k v (t.chain i) by rw [hi]; exact update_self ..,
      mem_insert]
    simp only [hi, and_true]
  · rw [show (t.put k v).chain i = t.chain i from update_of_ne hi ..]
    constructor
    · intro he
      refine .inl ⟨?_, he⟩
      rintro rfl
      exact hi (t.index_eq i e he).symm
    · rintro (⟨-, he⟩ | ⟨-, hik⟩)
      · exact he
      · exact absurd hik hi

theorem get_put : (t.put k v).get k = some v := by
  rw [get_eq_some, mem_chain_put]
  exact .inr ⟨rfl, rfl⟩

theorem get_put_of_ne {k' : K} (h : k' ≠ k) : (t.put k v).get k' = t.get k' := by
  refine Option.ext fun v' => ?_
  rw [get_eq_some, get_eq_some, mem_chain_put]
  constructor
  · rintro (⟨-, he⟩ | ⟨he, -⟩)
    · exact he
    · exact absurd (congrArg Prod.fst he) h
  · exact fun he => .inl ⟨h, he⟩

theorem get_of_remove {k' : K} (h : (t.remove k).get k' = some v) : t.get k' = some v := by
  rw [get_eq_some] at h ⊢
  by_cases hi : index k' = index k
  · rw [show (t.remove k).chain (index k') = erase k (t.chain (index k')) by
      rw [hi]; exact update_self ..] at h
    exact mem_of_mem_filter h
  · rwa [show (t.remove k).chain (index k') = t.chain (index k') from update_of_ne hi ..] at h

theorem get_remove : (t.remove k).get k = none := by
  refine Option.eq_none_iff_forall_ne_some.mpr fun v h => ?_
  rw [get_eq_some, show (t.remove k).chain (index k) = erase k (t.chain (index k)) from
    update_self .., erase, mem_filter, decide_eq_true_eq] at h
  exact h.2 rfl

theorem get_remove_of_ne {k' : K} (h : k' ≠ k) : (t.remove k).get k' = t.get k' := by
  refine Option.ext fun v => ⟨get_of_remove, fun hv => ?_⟩
  rw [get_eq_some] at hv ⊢
  by_cases hi : index k' = index k
  · rw [show (t.remove k).chain (index k') = erase k (t.chain (index k')) by
      rw [hi]; exact update_self .., erase, mem_filter, decide_eq_true_eq]
    exact ⟨hv, h⟩
  · rwa [show (t.remove k).chain (index k') = t.chain (index k') from update_of_ne hi ..]

theorem get_foldl_put_of_notMem : ∀ (l : List (K × V)) (t : Table V index) {k : K},
    k ∉ l.map Prod.fst → (l.foldl (fun t e => t.put e.1 e.2) t).get k = t.get k
  | [], _, _, _ => rfl
  | e :: l, t, k, hk => by
    rw [map_cons, mem_cons, not_or] at hk
    rw [foldl_cons, get_foldl_put_of_notMem l _ hk.2, get_put_of_ne hk.1]

theorem get_foldl_put : ∀ (l : List (K × V)) (t : Table V index), (l.map Prod.fst).Nodup →
    ∀ k v, (k, v) ∈ l → (l.foldl (fun t e => t.put e.1 e.2) t).get k = some v
  | e :: l, t, hl, k, v, he => by
    rw [map_cons, nodup_cons] at hl
    rw [foldl_cons]
    rcases mem_cons.mp he with rfl | he
    · rw [get_foldl_put_of_notMem l _ hl.1, get_put]
    · exact get_foldl_put l _ hl.2 k v he

/-! ### All entries -/

def chains (t : Table V index) : List (List (K × V)) := (finRange n).map t.chain

def entries (t : Table V index) : List (K × V) := t.chains.flatten

theorem mem_entries : (k, v) ∈ t.entries ↔ t.get k = some v := by
  unfold entries
  rw [get_eq_some, mem_flatten]
  constructor
  · rintro ⟨c, hc, he⟩
    obtain ⟨i, -, rfl⟩ := mem_map.mp hc
    rwa [← t.index_eq i _ he] at he
  · intro he
    exact ⟨_, mem_map_of_mem (mem_finRange _), he⟩

omit [DecidableEq K] in
theorem nodup_entries (t : Table V index) : (t.entries.map Prod.fst).Nodup := by
  unfold entries chains
  rw [map_flatten, map_map, nodup_flatten]
  refine ⟨?_, ?_⟩
  · intro c hc
    obtain ⟨i, -, rfl⟩ := mem_map.mp hc
    exact t.nodup i
  · refine Pairwise.map _ ?_ (nodup_finRange n)
    intro i j hij k hi hj
    obtain ⟨e, he, rfl⟩ := mem_map.mp hi
    obtain ⟨e', he', hee'⟩ := mem_map.mp hj
    refine hij ?_
    rw [← t.index_eq i e he, ← t.index_eq j e' he', hee']

omit [DecidableEq K] in
theorem entries_empty : (empty : Table V index).entries = [] := by
  unfold entries chains
  rw [flatten_eq_nil_iff]
  intro c hc
  obtain ⟨i, -, rfl⟩ := mem_map.mp hc
  rfl

theorem entries_put (h : t.get k = none) : ((t.put k v).entries).Perm ((k, v) :: t.entries) := by
  have hnew : ∀ v', (k, v') ∉ t.entries := fun v' he => by
    rw [mem_entries, h] at he
    cases he
  refine (perm_ext_iff_of_nodup (Nodup.of_map _ (nodup_entries _)) ?_).mpr ?_
  · exact nodup_cons.mpr ⟨hnew v, Nodup.of_map _ (nodup_entries t)⟩
  · rintro ⟨k', v'⟩
    rw [mem_entries, mem_cons, mem_entries]
    by_cases hk : k' = k
    · rw [hk, get_put, h]
      simp [eq_comm]
    · rw [get_put_of_ne hk]
      simp [hk]

end Table

end Rooter.ChainedTable
