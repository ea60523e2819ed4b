import Rooter.PackageDepends

/-!
# `mconf_depends` returns

A call without a condition marks its entries for good.  From a call with one, the condition can
grow along a cycle of entries that were never seen without a condition; then the function does not
return.  Where no such cycle can be reached, the conditions are among finitely many, each step
marks another key or removes a call, and the function returns.
-/

namespace Rooter.PackageDepends

open List Growth Relation

/-! ### Finitely many keys -/

section Keys

variable (m : Metadata) (pkgname : Text) (depends : List Text)

def entries : List Text := m.package.flatMap (·.2) ++ depends

def texts : List Text := (entries m depends).map textOf

def nodes : Finset (List Text) := (m.package.map (·.2)).toFinset

def conditions : Nat → List Text
  | 0 => [[]]
  | k + 1 => conditions k ++ (conditions k).flatMap fun condition =>
      (texts m depends).map (conditionAfter m pkgname condition)

def keys : List Text :=
  (conditions m pkgname depends ((nodes m).card + 1)).flatMap fun condition =>
    (texts m depends).map (key condition)

def unseen (seen : List Text) : Nat :=
  ((keys m pkgname depends).toFinset \ seen.toFinset).card

end Keys

section Sufficient

variable {m : Metadata} {pkgname : Text} {depends : List Text} {seen seen' : List Text}

theorem conditions_mono {k k' : Nat} (h : k ≤ k') :
    conditions m pkgname depends k ⊆ conditions m pkgname depends k' := by
  induction h with
  | refl => exact Subset.refl _
  | step _ ih => exact Subset.trans ih (subset_append_left _ _)

theorem conditionAfter_mem {k : Nat} {condition text : Text}
    (hcondition : condition ∈ conditions m pkgname depends k) (htext : text ∈ texts m depends) :
    conditionAfter m pkgname condition text ∈ conditions m pkgname depends (k + 1) := by
  apply mem_append_right
  exact mem_flatMap.mpr ⟨condition, hcondition, mem_map_of_mem htext⟩

theorem key_mem {k : Nat} {condition text : Text} (hk : k ≤ (nodes m).card + 1)
    (hcondition : condition ∈ conditions m pkgname depends k) (htext : text ∈ texts m depends) :
    key condition text ∈ keys m pkgname depends :=
  mem_flatMap.mpr ⟨condition, conditions_mono hk hcondition, mem_map_of_mem htext⟩

section

variable (h : seen ⊆ seen')

include h

theorem toFinset_subset : seen.toFinset ⊆ seen'.toFinset := by
  intro x hx
  exact mem_toFinset.mpr (h (mem_toFinset.mp hx))

theorem unseen_mono : unseen m pkgname depends seen' ≤ unseen m pkgname depends seen :=
  Finset.card_le_card (Finset.sdiff_subset_sdiff (Finset.Subset.refl _) (toFinset_subset h))

theorem unseen_lt {x : Text} (hx : x ∈ keys m pkgname depends) (hnew : x ∉ seen)
    (hseen : x ∈ seen') : unseen m pkgname depends seen' < unseen m pkgname depends seen := by
  apply Finset.card_lt_card
  refine Finset.ssubset_iff_of_subset ?_ |>.mpr ⟨x, ?_, ?_⟩
  · exact Finset.sdiff_subset_sdiff (Finset.Subset.refl _) (toFinset_subset h)
  · simp [hx, hnew]
  · simp [hseen]

/-! ### The calls on the stack -/

theorem Edge.mono (a b : List Text) (hedge : Edge m pkgname seen' a b) :
    Edge m pkgname seen a b := by
  obtain ⟨text, hentry, hunseen, hlookup⟩ := hedge
  exact ⟨text, hentry, fun hin => hunseen (h hin), hlookup⟩

theorem Grow.mono (a b : List Text) (hgrow : Grow m pkgname seen' a b) :
    Grow m pkgname seen a b := by
  obtain ⟨text, ⟨hentry, hunseen, hlookup⟩, hlabels⟩ := hgrow
  exact ⟨text, ⟨hentry, fun hin => hunseen (h hin), hlookup⟩, hlabels⟩

end

/-- A call has entries of the metadata.  It has no condition, or one that its caller without a
    condition built; or no cycle that adds to the condition can be reached from it, and the
    condition and the nodes to be reached are bounded together. -/
structure Placed (m : Metadata) (pkgname : Text) (depends : List Text) (seen : List Text)
    (f : Frame) : Prop where
  known : f.depends ⊆ entries m depends
  condition : f.condition = [] ∨ f.depends ∈ nodes m ∧ ∃ k,
    f.condition ∈ conditions m pkgname depends k ∧
    (k = 1 ∨ k + rank (nodes m) (Edge m pkgname seen) f.depends ≤ (nodes m).card + 1 ∧
      Bounded (Edge m pkgname seen) (Grow m pkgname seen) f.depends)

variable {f : Frame} {entry : Text}

section

variable (hf : Placed m pkgname depends seen f)

include hf

theorem Placed.text_mem (hentry : entry ∈ f.depends) : textOf entry ∈ texts m depends :=
  mem_map_of_mem (hf.known hentry)

theorem Placed.mono (h : seen ⊆ seen') : Placed m pkgname depends seen' f := by
  refine ⟨hf.known, hf.condition.imp_right ?_⟩
  rintro ⟨hnode, k, hcondition, hk⟩
  refine ⟨hnode, k, hcondition, hk.imp_right ?_⟩
  rintro ⟨hrank, hbounded⟩
  have hle := @rank_mono _ (Edge m pkgname seen) f.depends (nodes m) (Edge m pkgname seen')
    (Edge.mono h)
  exact ⟨by omega, hbounded.mono (Edge.mono h) (Grow.mono h)⟩

theorem Placed.bounded (hne : f.condition ≠ [])
    (h : f.condition = [] ∨ Bounded (Edge m pkgname seen) (Grow m pkgname seen) f.depends) :
    f.depends ∈ nodes m ∧ ∃ k, f.condition ∈ conditions m pkgname depends k ∧
      k + rank (nodes m) (Edge m pkgname seen) f.depends ≤ (nodes m).card + 1 ∧
      Bounded (Edge m pkgname seen) (Grow m pkgname seen) f.depends := by
  have hbounded := h.resolve_left hne
  obtain ⟨hnode, k, hcondition, hk⟩ := hf.condition.resolve_left hne
  refine ⟨hnode, k, hcondition, ?_, hbounded⟩
  rcases hk with rfl | ⟨hrank, -⟩
  · have hle := @rank_le_card _ (Edge m pkgname seen) f.depends (nodes m)
    omega
  · exact hrank

theorem Placed.key_mem
    (h : f.condition = [] ∨ Bounded (Edge m pkgname seen) (Grow m pkgname seen) f.depends)
    (hentry : entry ∈ f.depends) :
    key f.condition (textOf entry) ∈ keys m pkgname depends := by
  by_cases hne : f.condition = []
  · rw [hne]
    exact PackageDepends.key_mem (Nat.zero_le _) (mem_singleton_self _) (hf.text_mem hentry)
  · obtain ⟨-, k, hcondition, hk, -⟩ := hf.bounded hne h
    exact PackageDepends.key_mem (by omega) hcondition (hf.text_mem hentry)

end

theorem mem_of_lookup {name : Text} {entries : List Text}
    (h : m.package.lookup name = some entries) : (name, entries) ∈ m.package := by
  obtain ⟨front, behind, heq, -⟩ := lookup_eq_some_iff.mp h
  simp [heq]

theorem mem_nodes_of_lookup {name : Text} {entries : List Text}
    (h : m.package.lookup name = some entries) : entries ∈ nodes m := by
  simp only [nodes, mem_toFinset, mem_map]
  exact ⟨_, mem_of_lookup h, rfl⟩

theorem Asks.known {g : Frame} (h : Asks m pkgname f entry g) : g.depends ⊆ entries m depends := by
  obtain ⟨-, entries, hlookup, rfl⟩ := h
  intro other hother
  apply mem_append_left
  exact mem_flatMap.mpr ⟨_, mem_of_lookup hlookup, hother⟩

theorem Placed.of_asks {g : Frame} (hf : Placed m pkgname depends seen f)
    (h : f.condition = [] ∨ Bounded (Edge m pkgname seen) (Grow m pkgname seen) f.depends)
    (hentry : entry ∈ f.depends) (hunseen : key [] (textOf entry) ∉ seen)
    (hasks : Asks m pkgname f entry g) : Placed m pkgname depends seen g := by
  refine ⟨hasks.known, ?_⟩
  obtain ⟨hplus, entries, hlookup, rfl⟩ := hasks
  have hselects : Selects m pkgname seen (textOf entry) f.depends entries :=
    ⟨⟨entry, hentry, hplus, rfl⟩, hunseen, hlookup⟩
  have hnode := mem_nodes_of_lookup hlookup
  dsimp only
  by_cases hlabels : labels m pkgname (textOf entry) = []
  · -- the condition stays as it is
    have hsame : conditionAfter m pkgname f.condition (textOf entry) = f.condition := by
      rw [conditionAfter, hlabels, foldl_nil]
    rw [hsame]
    by_cases hne : f.condition = []
    · exact .inl hne
    · obtain ⟨-, k, hcondition, hk, hbounded⟩ := hf.bounded hne h
      have hle := @rank_le_of_edge _ (Edge m pkgname seen) _ _ (nodes m) ⟨_, hselects⟩
      exact .inr ⟨hnode, k, hcondition,
        .inr ⟨by omega, hbounded.of_edge ⟨_, hselects⟩⟩⟩
  · have hgrow : Grow m pkgname seen f.depends entries := ⟨_, hselects, hlabels⟩
    by_cases hne : f.condition = []
    · rw [hne]
      refine .inr ⟨hnode, 1, ?_, .inl rfl⟩
      exact conditionAfter_mem (mem_singleton_self _) (hf.text_mem hentry)
    · obtain ⟨hfnode, k, hcondition, hk, hbounded⟩ := hf.bounded hne h
      have hlt := rank_lt_of_grow hfnode hbounded ⟨_, hselects⟩ hgrow
      exact .inr ⟨hnode, k + 1, conditionAfter_mem hcondition (hf.text_mem hentry),
        .inr ⟨by omega, hbounded.of_edge ⟨_, hselects⟩⟩⟩

def Inv (m : Metadata) (pkgname : Text) (depends : List Text) (s : State) : Prop :=
  ∀ f ∈ s.stack, Placed m pkgname depends s.seen f

theorem inv_run_zero : Inv m pkgname depends (run m pkgname depends 0) := by
  intro f hf
  cases mem_singleton.mp hf
  exact ⟨subset_append_right _ _, .inl rfl⟩

theorem inv_step {s : State} (hs : Inv m pkgname depends s) (h : Harmless m pkgname s) :
    Inv m pkgname depends (step m pkgname s) := by
  rcases hstack : s.stack with _ | ⟨f, rest⟩
  · rwa [step_nil hstack]
  · have hmono := @seen_subset_step m pkgname s
    simp only [Harmless, hstack] at h
    have hf := hs f (by simp [hstack])
    intro g hg
    rw [step_stack hstack, mem_append] at hg
    rcases hg with hg | hg
    · rcases mem_foldl_stack hg with hg | ⟨entry, hentry, hasks, -, hunseen, -⟩
      · cases hg
      · exact (hf.of_asks h hentry hunseen hasks).mono hmono
    · exact (hs g (by simp [hstack, hg])).mono hmono

theorem step_decreases {s : State} (hs : Inv m pkgname depends s) (h : Harmless m pkgname s)
    (hne : s.stack ≠ []) :
    unseen m pkgname depends (step m pkgname s).seen < unseen m pkgname depends s.seen ∨
    unseen m pkgname depends (step m pkgname s).seen ≤ unseen m pkgname depends s.seen ∧
      (step m pkgname s).stack.length < s.stack.length := by
  obtain ⟨f, rest, hstack⟩ := exists_cons_of_ne_nil hne
  have hmono := @seen_subset_step m pkgname s
  rcases hcalls : (loop m pkgname f s.seen s.dep).stack with _ | ⟨g, calls⟩
  · right
    refine ⟨unseen_mono hmono, ?_⟩
    rw [step_stack hstack, hcalls, hstack]
    simp
  · left
    simp only [Harmless, hstack] at h
    have hg : g ∈ (loop m pkgname f s.seen s.dep).stack := by simp [hcalls]
    rcases mem_foldl_stack hg with hg | ⟨entry, hentry, -, hnew, -, hseen⟩
    · cases hg
    · have hf := hs f (by simp [hstack])
      refine unseen_lt hmono (hf.key_mem h hentry) hnew ?_
      rw [step_seen hstack]
      exact hseen

theorem exists_empty {s : State} (hs : Inv m pkgname depends s)
    (h : ∀ n, Harmless m pkgname ((step m pkgname)^[n] s)) :
    ∃ n, ((step m pkgname)^[n] s).stack = [] := by
  -- by the number of unseen keys, and for the same number by the height of the stack
  induction hkeys : unseen m pkgname depends s.seen using Nat.strong_induction_on
    generalizing s with
  | _ count ihcount =>
    induction hheight : s.stack.length using Nat.strong_induction_on generalizing s with
    | _ height ihheight =>
      by_cases hne : s.stack = []
      · exact ⟨0, hne⟩
      · have hnext := inv_step hs (h 0)
        have hlater : ∀ n, Harmless m pkgname ((step m pkgname)^[n] (step m pkgname s)) :=
          fun n => h (n + 1)
        suffices hend : ∃ n, ((step m pkgname)^[n] (step m pkgname s)).stack = [] by
          obtain ⟨n, hn⟩ := hend
          exact ⟨n + 1, hn⟩
        rcases step_decreases hs (h 0) hne with hlt | ⟨hle, hlt⟩
        · exact ihcount _ (by omega) hnext hlater rfl
        · rcases Nat.lt_or_eq_of_le hle with hkeys' | hkeys'
          · exact ihcount _ (by omega) hnext hlater rfl
          · exact ihheight _ (by omega) hnext hlater (by omega) rfl

theorem terminates_of_harmless (h : ∀ n, Harmless m pkgname (run m pkgname depends n)) :
    Terminates m pkgname depends :=
  exists_empty inv_run_zero h

/-! ### Metadata without such cycles -/

theorem mem_nodes_run (n : Nat) :
    ∀ f ∈ (run m pkgname depends n).stack, f.condition = [] ∨ f.depends ∈ nodes m := by
  induction n with
  | zero =>
    intro f hf
    cases mem_singleton.mp hf
    exact .inl rfl
  | succ n ih =>
    rw [run_succ]
    rcases hstack : (run m pkgname depends n).stack with _ | ⟨f, rest⟩
    · rwa [step_nil hstack]
    · intro g hg
      rw [step_stack hstack, mem_append] at hg
      rcases hg with hg | hg
      · rcases mem_foldl_stack hg with hg | ⟨entry, -, ⟨-, entries, hlookup, rfl⟩, -⟩
        · cases hg
        · exact .inr (mem_nodes_of_lookup hlookup)
      · exact ih g (by simp [hstack, hg])

/-- The packages have levels: what an entry with `+` selects is not on a higher level, and what it
    selects under a condition is on a lower one. -/
def Leveled (m : Metadata) (pkgname : Text) (level : List Text → Nat) : Prop :=
  ∀ node ∈ nodes m, ∀ entry ∈ node, '+' ∈ flagsOf entry →
    ∀ next ∈ m.package.lookup (target m pkgname (textOf entry)),
      level next ≤ level node ∧ (labels m pkgname (textOf entry) ≠ [] → level next < level node)

instance (m : Metadata) (pkgname : Text) (level : List Text → Nat) :
    Decidable (Leveled m pkgname level) := by
  delta Leveled
  infer_instance

variable {level : List Text → Nat}

theorem Leveled.bounded (h : Leveled m pkgname level) {node : List Text} (hnode : node ∈ nodes m) :
    Bounded (Edge m pkgname seen) (Grow m pkgname seen) node := by
  refine @bounded_of_level _ _ _ _ (· ∈ nodes m) level ?_ ?_ hnode
  · rintro a b ha ⟨text, ⟨entry, hentry, hplus, rfl⟩, -, hlookup⟩
    exact ⟨mem_nodes_of_lookup hlookup, (h a ha entry hentry hplus b hlookup).1⟩
  · rintro a b ha ⟨text, ⟨⟨entry, hentry, hplus, rfl⟩, -, hlookup⟩, hlabels⟩
    exact ⟨mem_nodes_of_lookup hlookup, (h a ha entry hentry hplus b hlookup).2 hlabels⟩

/-- Whatever cycles there are between packages of one level, all calls are harmless. -/
theorem harmless_of_leveled (h : Leveled m pkgname level) (n : Nat) :
    Harmless m pkgname (run m pkgname depends n) := by
  unfold Harmless
  split
  · trivial
  · next f rest hstack =>
    have hf : f ∈ (run m pkgname depends n).stack := by simp [hstack]
    exact (mem_nodes_run n f hf).imp_right h.bounded

end Sufficient

end Rooter.PackageDepends
