import Rooter.PackageDepends

/-!
# `package-metadata.pl`: the search for a dependency

The order of a menu rests on the question whether a package depends on another one.  The search
goes through the entries of a package, and through those of the packages that provide them, with
one table of what was seen.  The entries that are still to be looked at on all levels of the
recursion are kept as one list.
-/

namespace Rooter.PackageDepends

open List Relation

/-! ### The search -/

/-- The packages that the two loops of `__find_package_dep` come to. -/
def Metadata.targets (m : Metadata) (pkg : Text) : List Text :=
  ((m.package.lookup pkg).getD []).flatMap fun vpkg =>
    ((m.vpackage.lookup vpkg).getD []).map Provider.name

/-- A package that is not seen yet makes one of them less, unless it has no entries. -/
theorem fewer_unseen {m : Metadata} {dep : Text} {seen : List Text} (h : ¬seen.contains dep)
    (rest : List Text) : Prod.Lex (· < ·) (· < ·)
      (((m.package.map Prod.fst).filter (!(dep :: seen).contains ·)).length,
        (m.targets dep ++ rest).length)
      (((m.package.map Prod.fst).filter (!seen.contains ·)).length, rest.length + 1) := by
  have hsplit : (m.package.map Prod.fst).filter (!(dep :: seen).contains ·) =
      ((m.package.map Prod.fst).filter (!seen.contains ·)).filter (· ≠ dep) := by
    rw [filter_filter]
    congr 1
    funext x
    simp
  rw [hsplit]
  by_cases hdep : dep ∈ m.package.map Prod.fst
  · refine Prod.Lex.left _ _ (length_filter_lt_length_iff_exists.mpr ⟨dep, ?_, by simp⟩)
    simp only [mem_filter, hdep, h, Bool.not_false, and_self]
  · have hnone : m.package.lookup dep = none := by
      rw [lookup_eq_none_iff]
      intro p hp
      have hne : dep ≠ p.1 := fun heq => hdep (heq ▸ mem_map_of_mem hp)
      simpa using hne
    have htargets : m.targets dep = [] := by
      rw [Metadata.targets, hnone]
      rfl
    rw [htargets]
    exact Prod.Lex.right' _ (length_filter_le _ _) (Nat.lt_succ_self _)

/-- `__find_package_dep`, where `seen` is `%dep_check`. -/
def Metadata.findLoop (m : Metadata) (name : Text) (todo seen : List Text) : Bool :=
  match todo with
  | [] => false
  | dep :: rest =>
      if seen.contains dep then m.findLoop name rest seen
      else if dep = name then true
      else m.findLoop name (m.targets dep ++ rest) (dep :: seen)
termination_by (((m.package.map Prod.fst).filter (!seen.contains ·)).length, todo.length)
decreasing_by
  · exact Prod.Lex.right _ (Nat.lt_succ_self _)
  · exact fewer_unseen ‹_› rest

def Metadata.findPackageDep (m : Metadata) (pkg name : Text) : Bool :=
  m.findLoop name (m.targets pkg) []

/-! ### Reachable packages -/

variable {m : Metadata}

/-- One or more steps from a package to the packages that its entries name. -/
def Metadata.Depends (m : Metadata) : Text → Text → Prop := TransGen fun a b => b ∈ m.targets a

theorem findLoop_iff {pkg name : Text} {todo seen : List Text}
    (hsound : ∀ p ∈ todo, m.Depends pkg p) (hname : name ∉ seen)
    (hclosed : ∀ x, x = pkg ∨ x ∈ seen → ∀ y ∈ m.targets x, y ∈ seen ∨ y ∈ todo) :
    m.findLoop name todo seen = true ↔ m.Depends pkg name := by
  fun_induction Metadata.findLoop m name todo seen with
  | case1 seen =>
    have hall : ∀ y, m.Depends pkg y → y ∈ seen := by
      intro y hdep
      induction hdep with
      | single h => simpa using hclosed pkg (.inl rfl) _ h
      | tail _ h ih => simpa using hclosed _ (.inr ih) _ h
    exact iff_of_false Bool.false_ne_true fun hdep => hname (hall name hdep)
  | case2 seen dep rest hseen ih =>
    refine ih (fun p hp => hsound p (mem_cons_of_mem _ hp)) hname fun x hx y hy => ?_
    rcases hclosed x hx y hy with h | h
    · exact .inl h
    · rcases mem_cons.mp h with rfl | h
      · exact .inl (contains_iff_mem.mp hseen)
      · exact .inr h
  | case3 seen rest hseen => exact iff_of_true rfl (hsound _ mem_cons_self)
  | case4 seen dep rest hseen hne ih =>
    have hdep := hsound dep mem_cons_self
    refine ih (fun p hp => ?_) ?_ fun x hx y hy => ?_
    · rcases mem_append.mp hp with hp | hp
      · exact hdep.tail hp
      · exact hsound p (mem_cons_of_mem _ hp)
    · simp [hname, Ne.symm hne]
    · by_cases hself : x = dep
      · exact .inr (mem_append_left _ (hself ▸ hy))
      · have hx' := hx.imp_right fun h => (mem_cons.mp h).resolve_left hself
        rcases hclosed x hx' y hy with h | h
        · exact .inl (mem_cons_of_mem _ h)
        · rcases mem_cons.mp h with rfl | h
          · exact .inl mem_cons_self
          · exact .inr (mem_append_right _ h)

theorem findPackageDep_iff {pkg name : Text} :
    m.findPackageDep pkg name = true ↔ m.Depends pkg name :=
  findLoop_iff (fun p hp => .single hp) (by simp) fun x hx y hy => .inr (by simp_all)

/-- **The search ends and is reachability**: it finds a package exactly if one or more steps lead
    there, each from a package to a provider of one of its entries. -/
theorem findPackageDep_reaches (m : Metadata) (pkg name : Text) :
    m.findPackageDep pkg name = true ↔
      TransGen (fun a b => ∃ vpkg ∈ (m.package.lookup a).getD [],
        ∃ dep ∈ (m.vpackage.lookup vpkg).getD [], dep.name = b) pkg name := by
  rw [findPackageDep_iff, Metadata.Depends]
  simp only [Metadata.targets, mem_flatMap, mem_map]

end Rooter.PackageDepends
