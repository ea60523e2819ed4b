import Rooter.Accounts

/-!
# Users and groups made at the same time

An id is chosen from the file as it was before the lock was taken, and `sed -i` on the group
file holds another lock than those who append to it.  This is all that can go wrong: as long as
no step is taken on an outdated file, every entry that was made is there and no chosen id is used
twice.
-/

namespace Rooter.Accounts

open List Execution Fields Numeral Function

/-! ### Lines -/

section Lines

variable {line : Text}

theorem colon_notMem_of_all {p : Char → Bool} (hp : p ':' = false) {t : Text}
    (h : t.all p = true) : ':' ∉ t := fun hmem =>
  absurd ((all_eq_true.mp h ':' hmem).symm.trans hp) Bool.noConfusion

theorem Name.colon_notMem (name : Name) : ':' ∉ name.text :=
  colon_notMem_of_all (by decide) name.proper.2

theorem Id.colon_notMem (id : Id) : ':' ∉ id.text :=
  colon_notMem_of_all (by decide) id.proper.2

theorem colon_notMem_decimal (n : Nat) : ':' ∉ decimal n := fun hmem =>
  absurd (isDigit_of_mem_decimal hmem) (by decide)

theorem cut_of_mem (h : ':' ∈ line) (n : Nat) : cut (n + 1) line = field ':' n line :=
  if_pos h

theorem key_of_mem (h : ':' ∈ line) : key line = (field ':' 0 line, field ':' 2 line) :=
  Prod.ext (cut_of_mem h 0) (cut_of_mem h 2)

theorem key_append_cons {name id : Text} (hname : ':' ∉ name) (hid : ':' ∉ id) (l : Text) :
    key (name ++ ':' :: ('x' :: ':' :: (id ++ ':' :: l))) = (name, id) := by
  have hx : ':' ∉ ['x'] := by decide
  rw [key_of_mem (mem_append_right _ mem_cons_self), field_zero_append_cons hname,
    field_succ_append_cons hname,
    show 'x' :: ':' :: (id ++ ':' :: l) = ['x'] ++ ':' :: (id ++ ':' :: l) from rfl,
    field_succ_append_cons hx, field_zero_append_cons hid]

theorem key_line (job : Job) {id : Text} (hid : ':' ∉ id) :
    key (job.line id) = (job.name.text, id) := by
  cases job with
  | group name => exact key_append_cons name.colon_notMem hid []
  | user name gid desc home shell => exact key_append_cons name.colon_notMem hid _

theorem count_line (name : Name) {id : Text} (hid : ':' ∉ id) :
    ((Job.group name).line id).count ':' = 3 := by
  change (name.text ++ ':' :: 'x' :: ':' :: (id ++ [':'])).count ':' = 3
  rw [count_append, count_eq_zero.mpr name.colon_notMem, count_cons_self,
    count_cons_of_ne (by decide), count_cons_self, count_append, count_eq_zero.mpr hid]
  rfl

theorem colon_notMem_delim (lines : List Text) (user : Name) : ':' ∉ delim lines ++ user.text := by
  intro hmem
  rcases mem_append.mp hmem with h | h
  · unfold delim at h
    split at h
    · exact absurd h not_mem_nil
    · exact absurd h (by decide)
  · exact user.colon_notMem h

theorem count_substitute_line {pat ins : Text} (hpat : pat.count ':' = 3) (hins : ':' ∉ ins)
    (hline : line.count ':' = 3) : (substitute pat ins 0 line).count ':' = 3 := by
  have hmem : ':' ∈ pat := count_pos_iff.mp (by rw [hpat]; decide)
  rw [count_substitute hmem hins (by rw [hpat, hline]), hline]

theorem key_substitute_line {pat ins : Text} (hpat : pat.count ':' = 3) (hins : ':' ∉ ins)
    (hline : line.count ':' = 3) : key (substitute pat ins 0 line) = key line := by
  have hmem : ∀ {l : Text}, l.count ':' = 3 → ':' ∈ l := fun h =>
    count_pos_iff.mp (by rw [h]; decide)
  have hle : line.count ':' ≤ pat.count ':' := by rw [hpat, hline]
  rw [key_of_mem (hmem hline), key_of_mem (hmem (count_substitute_line hpat hins hline)),
    field_substitute (by rw [hpat]; decide) hle, field_substitute (by rw [hpat]; decide) hle]

end Lines

/-! ### What holds of every process -/

/-- An id that was given, or that differs from those in the file when it was read. -/
def Chosen (created : List Created) (id : Text) (seen : Option Nat) : Prop :=
  ':' ∉ id ∧ ∀ n, seen = some n → n ≤ created.length ∧ ∀ c ∈ created.take n, c.id ≠ id

def PcOk (s₀ : State) (created : File → List Created) : Pc → Prop
  | .choose job ids _ seen =>
    seen ≤ (created job.file).length ∧ ∀ c ∈ (created job.file).take seen, c.id ∈ ids
  | .test job id seen => Chosen (created job.file) id seen
  | .lock job id seen => Chosen (created job.file) id seen
  | .append job id seen => Chosen (created job.file) id seen
  | .member lines _ => ∀ line ∈ lines, line.count ':' = 3
  | .lockSed lines _ => ∀ line ∈ lines, line.count ':' = 3
  | .sed lines _ => ∀ line ∈ lines, line.count ':' = 3
  | .replace content seen => seen ≤ (created .group).length ∧
      (∀ line ∈ content, line.count ':' = 3) ∧
      content.map key = (s₀.lines .group).map key ++ ((created .group).take seen).map Created.key
  | _ => True

structure Inv (s₀ s : State) : Prop where
  keys : ∀ f, (s.lines f).map key = (s₀.lines f).map key ++ (s.created f).map Created.key
  fields : ∀ line ∈ s.lines .group, line.count ':' = 3
  distinct : ∀ f, (((s.created f).filter Created.auto).map Created.id).Nodup
  pcs : ∀ p, PcOk s₀ s.created (s.pc p)

section Inv

variable {s₀ s t : State} {p : Pid} {inst : Bool} {seen : Option Nat} {f : File}
  {content : List Text}

theorem Initial.inv (h : Initial s₀) : Inv s₀ s₀ := by
  refine ⟨fun f => ?_, h.fields, fun f => ?_, fun p => ?_⟩
  · rw [h.nothing]
    exact (append_nil _).symm
  · rw [h.nothing]
    exact nodup_nil
  · rw [h.idle]
    exact trivial

theorem Inv.safe (h : Inv s₀ s) : Safe s := by
  refine ⟨fun f c hc => ?_, h.distinct⟩
  rw [h.keys]
  exact mem_append_right _ (mem_map_of_mem hc)

theorem take_eq_of_le {l l' : List Created} {n : Nat} (hn : n ≤ l.length) (h : l <+: l') :
    l'.take n = l.take n := by
  obtain ⟨m, rfl⟩ := h
  exact take_append_of_le_length hn

theorem Chosen.mono {l l' : List Created} {id : Text} (h : Chosen l id seen) (hl : l <+: l') :
    Chosen l' id seen := by
  refine ⟨h.1, fun n hn => ?_⟩
  obtain ⟨hle, hid⟩ := h.2 n hn
  exact ⟨Nat.le_trans hle hl.length_le, by rwa [take_eq_of_le hle hl]⟩

theorem PcOk.mono {created created' : File → List Created} {pc : Pc}
    (h : PcOk s₀ created pc) (hl : ∀ f, created f <+: created' f) : PcOk s₀ created' pc := by
  cases pc with
  | choose job ids n seen =>
    exact ⟨Nat.le_trans h.1 (hl _).length_le, by rw [take_eq_of_le h.1 (hl _)]; exact h.2⟩
  | test job id seen => exact Chosen.mono h (hl _)
  | lock job id seen => exact Chosen.mono h (hl _)
  | append job id seen => exact Chosen.mono h (hl _)
  | replace content seen =>
    refine ⟨Nat.le_trans h.1 (hl _).length_le, h.2.1, ?_⟩
    rw [take_eq_of_le h.1 (hl _)]
    exact h.2.2
  | _ => exact h

theorem Inv.goto (h : Inv s₀ s) {pc : Pc} (hpc : PcOk s₀ s.created pc) : Inv s₀ (s.goto p pc) := by
  refine ⟨h.keys, h.fields, h.distinct, fun q => ?_⟩
  change PcOk s₀ s.created (update s.pc p pc q)
  by_cases hq : q = p
  · rw [hq, update_self]
    exact hpc
  · rw [update_of_ne hq]
    exact h.pcs q

theorem created_acquire (hs : s.acquire inst f p = some t) : t.created = s.created := by
  unfold State.acquire at hs
  split at hs
  · cases hs
    rfl
  · split at hs <;> cases hs
    rfl

theorem Inv.acquire (h : Inv s₀ s) (hs : s.acquire inst f p = some t) : Inv s₀ t := by
  unfold State.acquire at hs
  split at hs
  · cases hs
    exact h
  · split at hs <;> cases hs
    exact ⟨h.keys, h.fields, h.distinct, h.pcs⟩

theorem Inv.acquire_goto (h : Inv s₀ s) (pc : Pc) (hpc : PcOk s₀ s.created pc)
    (hs : (s.acquire inst f p).map (·.goto p pc) = some t) : Inv s₀ t := by
  obtain ⟨s₁, hacq, rfl⟩ := Option.map_eq_some_iff.mp hs
  refine (h.acquire hacq).goto ?_
  rw [created_acquire hacq]
  exact hpc

theorem Inv.release (h : Inv s₀ s) (f : File) : Inv s₀ (s.release inst f) := by
  unfold State.release
  split
  · exact h
  · exact ⟨h.keys, h.fields, h.distinct, h.pcs⟩

theorem lines_append (s : State) (job : Job) (id : Text) (auto : Bool) (f : File) :
    (s.append job id auto).lines f =
      if f = job.file then s.lines f ++ [job.line id] else s.lines f := by
  unfold State.lines State.append
  dsimp only
  rw [update_apply]
  split
  next h => rw [h]; rfl
  next => rfl

theorem created_append (s : State) (job : Job) (id : Text) (auto : Bool) (f : File) :
    (s.append job id auto).created f =
      if f = job.file then s.created f ++ [⟨job.name, id, auto⟩] else s.created f := by
  unfold State.append
  dsimp only
  rw [update_apply]
  split
  next h => rw [h]
  next => rfl

theorem created_le_append (s : State) (job : Job) (id : Text) (auto : Bool) (f : File) :
    s.created f <+: (s.append job id auto).created f := by
  rw [created_append]
  split
  · exact prefix_append _ _
  · exact prefix_rfl

theorem Inv.append (h : Inv s₀ s) {job : Job} {id : Text}
    (hchosen : Chosen (s.created job.file) id seen)
    (hsince : ∀ n, seen = some n → ∀ c ∈ (s.created job.file).drop n, c.auto = true → c.id ≠ id) :
    Inv s₀ (s.append job id seen.isSome) := by
  refine ⟨fun f => ?_, fun line hline => ?_, fun f => ?_, fun q => ?_⟩
  · rw [lines_append, created_append]
    split
    next hf =>
      rw [map_append, map_append, h.keys, append_assoc, map_singleton, key_line job hchosen.1]
      rfl
    next => exact h.keys f
  · rw [lines_append] at hline
    split at hline
    next hf =>
      rcases mem_append.mp hline with hmem | hmem
      · exact h.fields line hmem
      · cases job with
        | group name =>
          rw [mem_singleton.mp hmem]
          exact count_line name hchosen.1
        | user name gid desc home shell => cases hf
    next => exact h.fields line hline
  · rw [created_append]
    split
    next hf =>
      subst hf
      rw [filter_append, map_append]
      cases hseen : seen with
      | none =>
        exact (append_nil _).symm ▸ h.distinct _
      | some n =>
        obtain ⟨-, htake⟩ := hchosen.2 n hseen
        refine nodup_append.mpr ⟨h.distinct _, pairwise_singleton _ _, ?_⟩
        intro a ha b hb
        cases mem_singleton.mp hb
        obtain ⟨c, hc, rfl⟩ := mem_map.mp ha
        obtain ⟨hmem, hauto⟩ := mem_filter.mp hc
        rw [← take_append_drop n (s.created job.file)] at hmem
        rcases mem_append.mp hmem with hfront | hback
        · exact htake c hfront
        · exact hsince n hseen c hback hauto
    next => exact h.distinct f
  · exact PcOk.mono (h.pcs q) (created_le_append s job id _)

theorem Inv.replace (h : Inv s₀ s) {seen : Nat} (hok : PcOk s₀ s.created (.replace content seen))
    (hseen : (s.created .group).length = seen) :
    Inv s₀ { s with file := update s.file .group (some content) } := by
  obtain ⟨-, hfields, hkeys⟩ := hok
  rw [← hseen, take_length] at hkeys
  refine ⟨fun f => ?_, hfields, h.distinct, h.pcs⟩
  cases f with
  | group => exact hkeys
  | passwd => exact h.keys .passwd

theorem Inv.id_mem (h : Inv s₀ s) {c : Created} (hc : c ∈ s.created f) :
    c.id ∈ (s.lines f).map (cut 3) := by
  obtain ⟨line, hline, heq⟩ := mem_map.mp (h.safe.present f c hc)
  exact mem_map.mpr ⟨line, hline, congrArg Prod.snd heq⟩

theorem Inv.sed (h : Inv s₀ s) (hfile : s.file .group = some content) {line ins : Text}
    (hline : line.count ':' = 3) (hins : ':' ∉ ins) :
    PcOk s₀ s.created (.replace (content.map (substitute line ins 0))
      (s.created .group).length) := by
  have hlines : s.lines .group = content := by
    unfold State.lines
    rw [hfile, Option.getD_some]
  have hfields := h.fields
  have hkeys := h.keys .group
  rw [hlines] at hfields hkeys
  refine ⟨Nat.le_refl _, fun l hl => ?_, ?_⟩
  · obtain ⟨l', hl', rfl⟩ := mem_map.mp hl
    exact count_substitute_line hline hins (hfields l' hl')
  · rw [take_length, ← hkeys, map_map]
    exact map_congr_left fun l hl => key_substitute_line hline hins (hfields l hl)

/-- **One command of a process.** -/
theorem Inv.next (h : Inv s₀ s) (hok : (s.pc p).Harmless s) (hs : next inst s p = some t) :
    Inv s₀ t := by
  have hpc := h.pcs p
  unfold Accounts.next at hs
  cases heq : s.pc p <;> rw [heq] at hs hpc hok <;> dsimp only at hs
  case idle => cases hs
  case find name => split at hs <;> cases hs <;> exact h.goto trivial
  case cut job =>
    cases hs
    refine h.goto ⟨Nat.le_refl _, fun c hc => ?_⟩
    rw [take_length] at hc
    exact h.id_mem hc
  case choose job ids n seen =>
    split at hs
    next =>
      cases hs
      exact h.goto hpc
    next hfree =>
      cases hs
      refine h.goto ⟨colon_notMem_decimal n, fun m hm => ?_⟩
      cases hm
      refine ⟨hpc.1, fun c hc hid => hfree ?_⟩
      exact any_eq_true.mpr ⟨c.id, hpc.2 c hc, decide_eq_true hid⟩
  case test job id seen =>
    split at hs <;> cases hs
    · exact h.goto hpc
    · exact h.goto trivial
  case lock job id seen => exact h.acquire_goto (.append job id seen) hpc hs
  case append job id seen =>
    cases hs
    refine (h.append hpc fun n hn => ?_).goto ?_
    · subst hn
      exact hok
    · cases job <;> exact trivial
  case shadow name =>
    cases hs
    have hinv : Inv s₀ { s with shadow := s.shadow ++ [shadowLine name] } :=
      ⟨h.keys, h.fields, h.distinct, h.pcs⟩
    exact hinv.goto trivial
  case unlock f =>
    cases hs
    exact (h.release f).goto trivial
  case grep group user =>
    cases hs
    exact h.goto fun line hline => h.fields line (mem_of_mem_filter hline)
  case member lines user =>
    split at hs <;> cases hs
    · exact h.goto trivial
    · exact h.goto hpc
  case lockSed lines user => exact h.acquire_goto (.sed lines user) hpc hs
  case sed lines user =>
    split at hs <;> cases hs
    next content line hfile =>
      exact h.goto (h.sed hfile (hpc line mem_cons_self) (colon_notMem_delim _ user))
    next => exact h.goto trivial
  case replace content seen =>
    cases hs
    exact (h.replace hpc hok).goto trivial

theorem Inv.call (h : Inv s₀ s) (c : Call) : Inv s₀ (s.goto p c.start) := by
  refine h.goto ?_
  cases c with
  | groupAddNext name => exact trivial
  | groupAdd name gid => exact ⟨gid.colon_notMem, fun n hn => nomatch hn⟩
  | groupAddUser group user => exact trivial
  | userAdd name uid gid desc home shell =>
    cases uid with
    | none => exact trivial
    | some uid => exact ⟨uid.colon_notMem, fun n hn => nomatch hn⟩

theorem Inv.step {a : Action} (h : Inv s₀ s) (hok : Harmless s a)
    (hs : step inst s a = some t) : Inv s₀ t := by
  cases a with
  | call p c =>
    unfold Accounts.step at hs
    dsimp only at hs
    split at hs
    · cases hs
      exact h.call c
    · cases hs
  | run p => exact h.next hok hs

/-! ### Nothing that was made is forgotten -/

theorem created_next (hs : next inst s p = some t) (f : File) : s.created f <+: t.created f := by
  have hacquire : ∀ {f' : File} {pc : Pc}, (s.acquire inst f' p).map (·.goto p pc) = some t →
      s.created f <+: t.created f := by
    intro f' pc hs
    obtain ⟨s₁, hacq, rfl⟩ := Option.map_eq_some_iff.mp hs
    exact created_acquire hacq ▸ prefix_rfl
  unfold Accounts.next at hs
  cases heq : s.pc p <;> rw [heq] at hs <;> dsimp only at hs
  case append job id seen =>
    cases hs
    exact created_le_append s job id _ f
  case lock job id seen => exact hacquire hs
  case lockSed lines user => exact hacquire hs
  case unlock f' =>
    cases hs
    unfold State.release
    split <;> exact prefix_rfl
  -- the other commands make no entry, whatever they find
  all_goals first
    | (cases hs <;> exact prefix_rfl)
    | (split at hs <;> cases hs <;> exact prefix_rfl)

theorem created_step {a : Action} (hs : step inst s a = some t) (f : File) :
    s.created f <+: t.created f := by
  cases a with
  | call p c =>
    unfold Accounts.step at hs
    dsimp only at hs
    split at hs <;> cases hs
    exact prefix_rfl
  | run p => exact created_next hs f

theorem created_run {actions : List Action} (hs : actions.foldlM (step inst) s = some t)
    (f : File) : s.created f <+: t.created f := by
  induction actions generalizing s with
  | nil =>
    cases hs
    exact prefix_rfl
  | cons a actions ih =>
    obtain ⟨s₁, hstep, hrest⟩ := Option.bind_eq_some_iff.mp hs
    exact (created_step hstep f).trans (ih hrest)

theorem NewNames.mono (h : NewNames s₀ t) (hle : s.created .group <+: t.created .group) :
    NewNames s₀ s :=
  ⟨h.1.sublist (hle.map Created.name).sublist, fun c hc => h.2 c (hle.subset hc)⟩

/-! ### Every step has to be harmless -/

theorem harmless_append {job : Job} {id : Text} (hsafe : Safe (s.append job id seen.isSome)) :
    (Pc.append job id seen).Harmless s := by
  cases seen with
  | none => exact trivial
  | some n =>
    intro c hc hauto
    have hnodup := hsafe.distinct job.file
    rw [created_append, if_pos rfl, filter_append, map_append] at hnodup
    have hmem : c.id ∈ ((s.created job.file).filter Created.auto).map Created.id :=
      mem_map_of_mem (mem_filter.mpr ⟨mem_of_mem_drop hc, hauto⟩)
    exact (nodup_append.mp hnodup).2.2 _ hmem _ mem_cons_self

theorem harmless_replace {seen : Nat} (hok : PcOk s₀ s.created (.replace content seen))
    (hnew : NewNames s₀ s) (hsafe : ∀ c ∈ s.created .group, c.key ∈ content.map key) :
    (Pc.replace content seen).Harmless s := by
  obtain ⟨hle, -, hkeys⟩ := hok
  refine Nat.le_antisymm (Nat.le_of_not_lt fun hlt => ?_) hle
  obtain ⟨c, hc⟩ := exists_mem_of_ne_nil _ (mt drop_eq_nil_iff.mp (Nat.not_le.mpr hlt))
  have hmem := hsafe c (mem_of_mem_drop hc)
  rw [hkeys] at hmem
  rcases mem_append.mp hmem with hold | hmade
  · obtain ⟨line, hline, heq⟩ := mem_map.mp hold
    exact hnew.2 c (mem_of_mem_drop hc)
      (mem_map.mpr ⟨line, hline, congrArg Prod.fst heq⟩)
  · obtain ⟨c', hc', heq⟩ := mem_map.mp hmade
    have hnodup := hnew.1
    rw [← take_append_drop seen (s.created .group), map_append] at hnodup
    exact (nodup_append.mp hnodup).2.2 _ (mem_map_of_mem hc') _ (mem_map_of_mem hc)
      (Name.ext (congrArg Prod.fst heq))

theorem Inv.harmless {a : Action} (h : Inv s₀ s) (hs : Accounts.step inst s a = some t)
    (hsafe : Safe t) (hnew : NewNames s₀ t) : Harmless s a := by
  cases a with
  | call p c => exact trivial
  | run p =>
    have hpc := h.pcs p
    have hnew' := hnew.mono (created_step hs .group)
    change Accounts.next inst s p = some t at hs
    change (s.pc p).Harmless s
    unfold Accounts.next at hs
    cases heq : s.pc p <;> rw [heq] at hs hpc <;> dsimp only at hs
    case append job id seen =>
      cases hs
      exact harmless_append ⟨hsafe.present, hsafe.distinct⟩
    case replace content seen =>
      cases hs
      exact harmless_replace hpc hnew' (hsafe.present .group)
    all_goals exact trivial

end Inv

theorem Inv.safe_run_iff {inst : Bool} {s₀ u s : State} {actions : List Action} (h : Inv s₀ u)
    (hrun : actions.foldlM (Accounts.step inst) u = some s) (hnew : NewNames s₀ s) :
    (∀ front rest t, actions = front ++ rest →
      front.foldlM (Accounts.step inst) u = some t → Safe t) ↔
        Admitted (Accounts.step inst) Harmless u actions := by
  induction actions generalizing u with
  | nil =>
    refine ⟨fun _ => trivial, fun _ front rest t heq ht => ?_⟩
    cases (append_eq_nil_iff.mp heq.symm).1
    cases ht
    exact h.safe
  | cons a actions ih =>
    obtain ⟨u₁, hstep, hrest⟩ := Option.bind_eq_some_iff.mp hrun
    constructor
    · intro hall
      have hok := h.harmless hstep (hall [a] actions u₁ rfl ?_) (hnew.mono (created_run hrest _))
      · refine ⟨hok, fun t ht => ?_⟩
        cases hstep.symm.trans ht
        refine (ih (h.step hok hstep) hrest).mp fun front rest t heq ht => ?_
        refine hall (a :: front) rest t (congrArg _ heq) ?_
        rw [foldlM_cons, hstep]
        exact ht
      · rw [foldlM_cons, hstep]
        rfl
    · rintro ⟨hok, hadm⟩ front rest t heq ht
      cases front with
      | nil =>
        cases ht
        exact h.safe
      | cons b front =>
        obtain ⟨rfl, heq'⟩ := cons.inj heq
        rw [foldlM_cons, hstep] at ht
        exact (ih (h.step hok hstep) hrest).mpr (hadm u₁ hstep) front rest t heq' ht

/-- **Users and groups made at the same time**, by any number of processes in any interleaving:
    everything that was made is there at every point, with ids of its own, just if every step is
    harmless. -/
theorem safe_iff {inst : Bool} {s₀ s : State} {actions : List Action} (hinit : Initial s₀)
    (hrun : actions.foldlM (step inst) s₀ = some s) (hnew : NewNames s₀ s) :
    (∀ front rest t, actions = front ++ rest → front.foldlM (step inst) s₀ = some t → Safe t) ↔
      Admitted (step inst) Harmless s₀ actions :=
  hinit.inv.safe_run_iff hrun hnew

/-! #### Two processes -/

instance (s : State) : DecidablePred (Pc.Harmless s)
  | .append job id (some seen) => inferInstanceAs (Decidable
      (∀ c ∈ (s.created job.file).drop seen, c.auto = true → c.id ≠ id))
  | .append _ _ none => isTrue trivial
  | .replace _ seen => inferInstanceAs (Decidable ((s.created .group).length = seen))
  | .idle => isTrue trivial
  | .find _ => isTrue trivial
  | .cut _ => isTrue trivial
  | .choose .. => isTrue trivial
  | .test .. => isTrue trivial
  | .lock .. => isTrue trivial
  | .shadow _ => isTrue trivial
  | .unlock _ => isTrue trivial
  | .grep .. => isTrue trivial
  | .member .. => isTrue trivial
  | .lockSed .. => isTrue trivial
  | .sed .. => isTrue trivial

instance (s : State) : DecidablePred (Harmless s)
  | .call _ _ => isTrue trivial
  | .run p => inferInstanceAs (Decidable ((s.pc p).Harmless s))

instance (s₀ s : State) : Decidable (NewNames s₀ s) :=
  inferInstanceAs (Decidable (_ ∧ _))

instance (s : State) : Decidable (Safe s) :=
  decidable_of_iff (∀ f ∈ [File.group, .passwd], (∀ c ∈ s.created f, c.key ∈ (s.lines f).map key) ∧
      (((s.created f).filter Created.auto).map Created.id).Nodup)
    ⟨fun h => ⟨fun f => (h f (by cases f <;> simp)).1, fun f => (h f (by cases f <;> simp)).2⟩,
      fun h f _ => ⟨h.present f, h.distinct f⟩⟩

/-- Only `root` is there. -/
def rootOnly : State where
  file
    | .group => some ["root:x:0:".toList]
    | .passwd => some ["root:x:0:0::/:/".toList]
  shadow := []
  lock _ := none
  pc _ := .idle
  created _ := []

theorem initial_rootOnly : Initial rootOnly :=
  ⟨fun _ => rfl, fun _ => rfl, fun _ => rfl, by decide⟩

def nameA : Name := ⟨['a'], by decide⟩

def nameB : Name := ⟨['b'], by decide⟩

def nameRoot : Name := ⟨['r', 'o', 'o', 't'], by decide⟩

/-- One process makes a group, the other one a user that it then puts into the group. -/
def oneByOne : List Action :=
  .call 1 (.groupAddNext nameA) :: replicate 7 (.run 1) ++
    .call 2 (.userAdd nameB none none [] [] []) :: replicate 7 (.run 2) ++
      .call 2 (.groupAddUser nameA nameB) :: replicate 6 (.run 2)

theorem safe_oneByOne : ∃ s, oneByOne.foldlM (step false) rootOnly = some s ∧
    s.lines .group = ["root:x:0:".toList,
      "a:x:65536:b".toList] ∧
    (s.created .passwd).length = 1 ∧ Safe s := by
  obtain ⟨s, hrun, hlines, husers, hnew⟩ : ∃ s ∈ oneByOne.foldlM (step false) rootOnly,
      s.lines .group = ["root:x:0:".toList,
        "a:x:65536:b".toList] ∧
      (s.created .passwd).length = 1 ∧ NewNames rootOnly s := by decide +kernel
  have hadm : Admitted (step false) Harmless rootOnly oneByOne := by decide +kernel
  exact ⟨s, hrun, hlines, husers,
    (safe_iff initial_rootOnly hrun hnew).mpr hadm _ [] s (append_nil _).symm hrun⟩

/-- Two processes look for a free id before one of them has taken it. -/
def sameId : List Action :=
  [.call 1 (.groupAddNext nameA), .call 2 (.groupAddNext nameB), .run 1, .run 1, .run 2, .run 2] ++
    replicate 5 (.run 1) ++ replicate 5 (.run 2)

/-- A group is added while `sed -i` is at work. -/
def lostGroup : List Action :=
  .call 1 (.groupAddUser nameRoot nameA) :: replicate 4 (.run 1) ++
    .call 2 (.groupAddNext nameB) :: replicate 7 (.run 2) ++ [.run 1, .run 1]

theorem not_safe_rootOnly : Initial rootOnly ∧
    (∃ s, sameId.foldlM (step false) rootOnly = some s ∧ NewNames rootOnly s ∧
      (s.pc 1 = .idle ∧ s.pc 2 = .idle) ∧
      s.created .group = [⟨nameA, decimal 65536, true⟩, ⟨nameB, decimal 65536, true⟩] ∧ ¬Safe s) ∧
    ∃ s, lostGroup.foldlM (step false) rootOnly = some s ∧ NewNames rootOnly s ∧
      (s.pc 1 = .idle ∧ s.pc 2 = .idle) ∧ s.created .group = [⟨nameB, decimal 65536, true⟩] ∧
      s.lines .group = ["root:x:0:a".toList] ∧ ¬Safe s := by
  exact ⟨initial_rootOnly, by decide +kernel, by decide +kernel⟩

end Rooter.Accounts
