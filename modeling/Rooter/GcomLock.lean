import Mathlib.Logic.Function.Basic
import Rooter.Execution

/-!
# The lock directory of `gcom-locked`

`gcom-locked` serialises access to the port of a modem by a directory: `mkdir` takes the
lock, the file `PID` inside names the process that took it, and `rm -rf` gives it back.  A
process that finds the directory reads the file and removes the directory when the process
named there is no longer alive.  `delsms.sh` and `sys2sms.sh` use the same loop on another
directory.

The model is a transition function over the shared directory and the position of
every process in the loop.  An action is one atomic file operation of one process,
or its death.  A directory is identified by the process that made it (a process
leaves the loop after its own `mkdir`, so it makes at most one), which also tells
an open file from a later one of the same name.
-/

namespace Rooter.GcomLock

open Execution Function

abbrev Pid := Nat

/-- The file `PID`: the shell creates it before it writes into it. -/
inductive PidFile where
  | absent
  | empty
  | pid (n : Pid)
deriving DecidableEq, Repr

structure LockDir where
  maker : Pid
  file : PidFile

inductive Pc where
  | start                                -- before `mkdir`
  | made                                 -- `mkdir` succeeded, `PID` not yet opened
  | created (dir : Pid)                  -- `PID` opened in the directory of `dir`
  | inside                               -- running gcom, before the last `rm -rf`
  | reading                              -- `mkdir` failed, before `cat`
  | testing (seen : PidFile) (dir : Pid) -- `cat` printed `seen`, before `kill -0`
  | breaking (dir : Pid)                 -- `kill -0` failed, before `rm -rf`
  | done
deriving DecidableEq, Repr

structure State where
  dir : Option LockDir
  pc : Pid → Pc
  alive : Pid → Bool

inductive Action where
  | run (p : Pid)
  | die (p : Pid)

/-- `kill -0 $OTHERPID`; without an argument it fails. -/
def kill0 (s : State) : PidFile → Bool
  | .pid n => s.alive n
  | _ => false

def State.goto (s : State) (p : Pid) (pc : Pc) : State :=
  { s with pc := update s.pc p pc }

def next (s : State) (p : Pid) : State :=
  match s.pc p with
  | .start =>
      match s.dir with
      | none => { s with dir := some ⟨p, .absent⟩ }.goto p .made
      | some _ => s.goto p .reading
  | .made =>
      match s.dir with
      | some d => { s with dir := some ⟨d.maker, .empty⟩ }.goto p (.created d.maker)
      | none => s.goto p .inside -- the directory is gone and the redirection fails
  | .created m =>
      match s.dir with
      | some d =>
          if d.maker = m then { s with dir := some ⟨m, .pid p⟩ }.goto p .inside
          else s.goto p .inside
      | none => s.goto p .inside
  | .inside => { s with dir := none }.goto p .done
  | .reading =>
      match s.dir with
      | some ⟨m, .pid n⟩ => s.goto p (.testing (.pid n) m)
      | some ⟨m, .empty⟩ => s.goto p (.testing .empty m)
      | _ => s.goto p .start
  | .testing seen m => if kill0 s seen then s.goto p .start else s.goto p (.breaking m)
  | .breaking _ => { s with dir := none }.goto p .start
  | .done => s

def step (s : State) : Action → Option State
  | .run p => if s.alive p then some (next s p) else none
  | .die p => some { s with alive := update s.alive p false }

def initial (alive : Pid → Bool) : State := ⟨none, fun _ => .start, alive⟩

/-- Between the successful `mkdir` and the last `rm -rf`. -/
def Pc.Holding : Pc → Prop
  | .made => True
  | .created _ => True
  | .inside => True
  | _ => False

def Exclusive (s : State) : Prop :=
  ∀ p q, s.alive p = true → s.alive q = true → (s.pc p).Holding → (s.pc q).Holding → p = q

/-! ### The two windows -/

/-- The schedule avoids the two windows of the stale-lock breaker: no process reads the file `PID`
    while its live maker has created but not yet written it, and no process removes the directory
    after the one it looked into has been replaced by that of another live process. -/
def Guarded (s : State) : Action → Prop
  | .run p =>
      (s.pc p = .reading → ∀ m, s.dir = some ⟨m, .empty⟩ → s.alive m = false) ∧
      (∀ m, s.pc p = .breaking m → ∀ d, s.dir = some d → d.maker = m ∨ s.alive d.maker = false)
  | .die _ => True

instance (s : State) : DecidablePred (Guarded s)
  | .die _ => isTrue trivial
  | .run p =>
    have : Decidable (∀ m, s.pc p = .breaking m →
        ∀ d, s.dir = some d → d.maker = m ∨ s.alive d.maker = false) :=
      match hpc : s.pc p with
      | .breaking m => decidable_of_iff (∀ d ∈ s.dir, d.maker = m ∨ s.alive d.maker = false)
          ⟨fun h _ hm => by cases hm; exact h, fun h => h m rfl⟩
      | .start | .made | .created _ | .inside | .reading | .testing _ _ | .done =>
          isTrue fun _ h => nomatch h
    have : Decidable (∀ m, s.dir = some ⟨m, .empty⟩ → s.alive m = false) :=
      decidable_of_iff (∀ d ∈ s.dir, d.file = .empty → s.alive d.maker = false)
        ⟨fun h m hm => h _ hm rfl, by rintro h ⟨m, file⟩ hd rfl; exact h m hd⟩
    inferInstanceAs (Decidable (_ ∧ _))

structure Inv (s : State) : Prop where
  holder : ∀ p, s.alive p = true → (s.pc p).Holding → ∃ file, s.dir = some ⟨p, file⟩
  opened : ∀ p m, s.alive p = true → s.pc p = .created m → m = p
  content : ∀ m n, s.dir = some ⟨m, .pid n⟩ → n = m
  tested : ∀ p seen m, s.pc p = .testing seen m → seen = .pid m ∨ s.alive m = false
  broken : ∀ p m, s.pc p = .breaking m → s.alive m = false

variable {s : State}

theorem inv_initial (alive : Pid → Bool) : Inv (initial alive) := by
  constructor <;> intros <;> simp_all [initial, Pc.Holding]

section

variable (hinv : Inv s)

include hinv

theorem Inv.holder_unique {p q : Pid} (hp : s.alive p = true) (hq : s.alive q = true)
    (hhp : (s.pc p).Holding) (hhq : (s.pc q).Holding) : p = q := by
  obtain ⟨file, hdir⟩ := hinv.holder p hp hhp
  obtain ⟨file', hdir'⟩ := hinv.holder q hq hhq
  rw [hdir] at hdir'
  exact congrArg LockDir.maker (Option.some.inj hdir')

theorem Inv.goto (p : Pid) (pc : Pc)
    (hholder : pc.Holding → s.alive p = true → ∃ file, s.dir = some ⟨p, file⟩)
    (hopened : ∀ m, pc = .created m → m = p)
    (htested : ∀ seen m, pc = .testing seen m → seen = .pid m ∨ s.alive m = false)
    (hbroken : ∀ m, pc = .breaking m → s.alive m = false) : Inv (s.goto p pc) := by
  constructor
  · intro q hq hh
    by_cases hqp : q = p
    · subst hqp
      exact hholder (by simpa [State.goto] using hh) hq
    · exact hinv.holder q hq (by simpa [State.goto, hqp] using hh)
  · intro q m hq hpc
    by_cases hqp : q = p
    · subst hqp
      exact hopened m (by simpa [State.goto] using hpc)
    · exact hinv.opened q m hq (by simpa [State.goto, hqp] using hpc)
  · exact hinv.content
  · intro q seen m hpc
    by_cases hqp : q = p
    · subst hqp
      exact htested seen m (by simpa [State.goto] using hpc)
    · exact hinv.tested q seen m (by simpa [State.goto, hqp] using hpc)
  · intro q m hpc
    by_cases hqp : q = p
    · subst hqp
      exact hbroken m (by simpa [State.goto] using hpc)
    · exact hinv.broken q m (by simpa [State.goto, hqp] using hpc)

theorem Inv.goto_idle (p : Pid) {pc : Pc} (hpc : pc = .start ∨ pc = .reading ∨ pc = .done) :
    Inv (s.goto p pc) := by
  rcases hpc with rfl | rfl | rfl <;>
    exact hinv.goto p _ (fun h => h.elim) (by simp) (by simp) (by simp)

theorem Inv.setDir (dir : Option LockDir)
    (hholder : ∀ p, s.alive p = true → (s.pc p).Holding → ∃ file, dir = some ⟨p, file⟩)
    (hcontent : ∀ m n, dir = some ⟨m, .pid n⟩ → n = m) : Inv { s with dir := dir } :=
  ⟨hholder, hinv.opened, hcontent, hinv.tested, hinv.broken⟩

theorem Inv.setDir_own {p : Pid} (hp : s.alive p = true) (hh : (s.pc p).Holding) (file : PidFile)
    (hfile : ∀ n, file = .pid n → n = p) : Inv { s with dir := some ⟨p, file⟩ } := by
  refine hinv.setDir _ (fun q hq hhq => ?_) fun m n hdir => ?_
  · exact ⟨file, by rw [hinv.holder_unique hq hp hhq hh]⟩
  · cases hdir
    exact hfile n rfl

/-- **One operation of a live process** under the guard. -/
theorem inv_next {p : Pid} (hp : s.alive p = true) (hok : Guarded s (.run p)) : Inv (next s p) := by
  obtain ⟨hread, hbreak⟩ := hok
  unfold next
  split
  case h_1 hpc =>
    split
    · -- the directory did not exist, so no live process held the lock
      next hdir =>
      refine (hinv.setDir _ (fun q hq hh => ?_) fun m n h => ?_).goto p .made
        (fun _ _ => ⟨.absent, rfl⟩) (by simp) (by simp) (by simp)
      · obtain ⟨file, hsome⟩ := hinv.holder q hq hh
        rw [hdir] at hsome
        cases hsome
      · cases h
    · exact hinv.goto_idle p (by simp)
  case h_2 hpc =>
    have hh : (s.pc p).Holding := by rw [hpc]; exact trivial
    obtain ⟨file, hdir⟩ := hinv.holder p hp hh
    split
    · next d hd =>
      rw [hdir] at hd
      cases hd
      exact (hinv.setDir_own hp hh .empty (by simp)).goto p (.created p)
        (fun _ _ => ⟨.empty, rfl⟩) (by simp) (by simp) (by simp)
    · next hd => rw [hdir] at hd; cases hd
  case h_3 m hpc =>
    have hh : (s.pc p).Holding := by rw [hpc]; exact trivial
    obtain ⟨file, hdir⟩ := hinv.holder p hp hh
    have hm : m = p := hinv.opened p m hp hpc
    subst hm
    split
    · next d hd =>
      rw [hdir] at hd
      cases hd
      rw [if_pos rfl]
      exact (hinv.setDir_own hp hh (.pid m) (by simp)).goto m .inside
        (fun _ _ => ⟨.pid m, rfl⟩) (by simp) (by simp) (by simp)
    · next hd => rw [hdir] at hd; cases hd
  case h_4 hpc =>
    -- the process leaves first; then no live process holds the lock
    have hh : (s.pc p).Holding := by rw [hpc]; exact trivial
    have hleft : Inv (s.goto p .done) := hinv.goto_idle p (by simp)
    refine hleft.setDir none (fun q hq hhq => ?_) (by simp)
    by_cases hqp : q = p
    · subst hqp
      simp [State.goto, Pc.Holding] at hhq
    · have hhq' : (s.pc q).Holding := by simpa [State.goto, hqp] using hhq
      exact absurd (hinv.holder_unique hq hp hhq' hh) hqp
  case h_5 hpc =>
    split
    · next m n hdir =>
      refine hinv.goto p _ (fun h => h.elim) (by simp) (fun seen m' heq => ?_) (by simp)
      cases heq
      exact .inl (by rw [hinv.content m n hdir])
    · next m hdir =>
      refine hinv.goto p _ (fun h => h.elim) (by simp) (fun seen m' heq => ?_) (by simp)
      cases heq
      exact .inr (hread hpc m hdir)
    · exact hinv.goto_idle p (by simp)
  case h_6 seen m hpc =>
    split
    · exact hinv.goto_idle p (by simp)
    · next hkill =>
      refine hinv.goto p _ (fun h => h.elim) (by simp) (by simp) fun m' heq => ?_
      cases heq
      rcases hinv.tested p seen m hpc with rfl | hdead
      · simpa [kill0] using hkill
      · exact hdead
  case h_7 m hpc =>
    -- the removed directory was made by a dead process
    have hleft : Inv (s.goto p .start) := hinv.goto_idle p (by simp)
    refine hleft.setDir none (fun q hq hhq => ?_) (by simp)
    obtain ⟨file, hdir⟩ := hleft.holder q hq hhq
    have hdead : s.alive q = false := by
      rcases hbreak m hpc _ hdir with hm | hdead
      · have hq' : q = m := hm
        rw [hq']
        exact hinv.broken p m hpc
      · exact hdead
    rw [show s.alive q = true from hq] at hdead
    cases hdead
  case h_8 hpc => exact hinv

theorem inv_die (p : Pid) : Inv { s with alive := update s.alive p false } := by
  have hstill : ∀ q, update s.alive p false q = true → s.alive q = true := by
    intro q hq
    by_cases hqp : q = p
    · subst hqp; simp at hq
    · simpa [hqp] using hq
  have hdead : ∀ q, s.alive q = false → update s.alive p false q = false := by
    intro q hq
    by_cases hqp : q = p
    · subst hqp; simp
    · simpa [hqp] using hq
  constructor
  · intro q hq hh
    exact hinv.holder q (hstill q hq) hh
  · intro q m hq hpc
    exact hinv.opened q m (hstill q hq) hpc
  · exact hinv.content
  · intro q seen m hpc
    exact (hinv.tested q seen m hpc).imp id (hdead m)
  · intro q m hpc
    exact hdead m (hinv.broken q m hpc)

theorem inv_step {t : State} {a : Action} (hok : Guarded s a) (hstep : step s a = some t) :
    Inv t := by
  cases a with
  | run p =>
    simp only [step] at hstep
    split at hstep
    · next hp =>
      cases hstep
      exact inv_next hinv hp hok
    · cases hstep
  | die p =>
    cases hstep
    exact inv_die hinv p

end

/-- **Mutual exclusion of guarded runs.**  For any number of processes, in any
    interleaving of their operations and deaths that avoids the two windows, at
    most one live process is between its `mkdir` and its last `rm -rf`. -/
theorem exclusive_of_guarded (alive : Pid → Bool) (s : State)
    (hrun : Steps step Guarded (initial alive) s) : Exclusive s := by
  have hinv : Inv s := hrun.invariant (inv_initial alive) fun s a t hs hok hstep =>
    inv_step hs hok hstep
  intro p q hp hq hhp hhq
  exact hinv.holder_unique hp hq hhp hhq

/-- Process 1 dies before it has written its number; process 2 finds the empty
    file, removes the directory and takes the lock. -/
def brokenStaleLock : List Action :=
  [.run 1, .run 1, .die 1, .run 2, .run 2, .run 2, .run 2, .run 2]

theorem exclusive_of_guarded_stale :
    ∃ s, brokenStaleLock.foldlM step (initial fun _ => true) = some s ∧
      s.pc 2 = .made ∧ s.alive 1 = false ∧ Exclusive s := by
  refine ⟨_, rfl, rfl, rfl, ?_⟩
  exact exclusive_of_guarded (fun _ => true) _
    (Steps.of_foldlM brokenStaleLock _ (by decide +kernel) rfl)

/-- The same operations with process 1 still alive: it has created the file and is
    about to write its number into it. -/
def brokenLiveLock : List Action :=
  [.run 1, .run 1, .run 2, .run 2, .run 2, .run 2, .run 2]

/-- **Two live holders.**  The empty file passes for that of a dead process. -/
theorem not_exclusive : ¬ ∀ (alive : Pid → Bool) (s : State),
    Steps step (fun _ _ => True) (initial alive) s → Exclusive s := by
  intro hclaim
  have hex := hclaim (fun _ => true) _
    (Steps.of_foldlM brokenLiveLock _ (admitted_true _ _) rfl)
  exact absurd (hex 1 2 rfl rfl trivial trivial) (by decide)

/-! ### Stale locks -/

/-- No live process is in the lock or about to break it. -/
def Idle (s : State) : Prop :=
  ∀ q, s.alive q = true → s.pc q = .start ∨ s.pc q = .reading ∨ s.pc q = .done

theorem idle_step {m : Pid} {a : Action} {t : State} (hidle : Idle s)
    (hdir : s.dir = some ⟨m, .absent⟩) (hstep : step s a = some t) :
    Idle t ∧ t.dir = some ⟨m, .absent⟩ := by
  cases a with
  | run p =>
    obtain ⟨hp, hnext⟩ := Option.ite_none_right_eq_some.mp hstep
    cases hnext
    have hgoto : ∀ pc, pc = .start ∨ pc = .reading ∨ pc = .done → Idle (s.goto p pc) := by
      intro pc hpc q hq
      by_cases hqp : q = p
      · simpa [State.goto, hqp] using hpc
      · simpa [State.goto, hqp] using hidle q hq
    rcases hidle p hp with h | h | h <;> simp only [next, h, hdir]
    · exact ⟨hgoto _ (by simp), hdir⟩
    · exact ⟨hgoto _ (by simp), hdir⟩
    · exact ⟨hidle, trivial⟩
  | die p =>
    cases hstep
    refine ⟨fun q hq => hidle q ?_, hdir⟩
    by_cases hqp : q = p
    · simp [hqp] at hq
    · simpa [hqp] using hq

/-- **Which stale locks are broken.**  When a process has died in the lock, another one can get it
    if and only if the dead one had created its file. -/
theorem stale_lock_iff {p m : Pid} {file : PidFile} (hidle : Idle s) (hp : s.alive p = true)
    (hpc : s.pc p = .start) (hdir : s.dir = some ⟨m, file⟩) (hstale : kill0 s file = false) :
    (∃ t q, Steps step (fun _ _ => True) s t ∧ t.alive q = true ∧ (t.pc q).Holding) ↔
      file ≠ .absent := by
  constructor
  · rintro ⟨t, q, hrun, hq, hholding⟩ rfl
    have hinv : Idle t ∧ t.dir = some ⟨m, .absent⟩ := hrun.invariant ⟨hidle, hdir⟩
      fun u a v hu _ hstep => idle_step hu.1 hu.2 hstep
    rcases hinv.1 q hq with h | h | h <;> simp [h, Pc.Holding] at hholding
  · intro hfile
    obtain ⟨t, hrun, hmade⟩ : ∃ t, (List.replicate 5 (Action.run p)).foldlM step s = some t ∧
        t.alive p = true ∧ (t.pc p).Holding := by
      cases file with
      | absent => exact absurd rfl hfile
      | empty => simp [List.replicate, step, next, State.goto, hp, hpc, hdir, kill0, Pc.Holding]
      | pid n =>
        rw [kill0] at hstale
        simp [List.replicate, step, next, State.goto, hp, hpc, hdir, kill0, hstale, Pc.Holding]
    exact ⟨t, p, Steps.of_foldlM _ s (admitted_true _ _) hrun, hmade⟩

/-- Process 1 dies behind its `mkdir`. -/
theorem stale_lock_iff_absent : ∃ s, Steps step (fun _ _ => True) (initial fun _ => true) s ∧
    ¬ ∃ t q, Steps step (fun _ _ => True) s t ∧ t.alive q = true ∧ (t.pc q).Holding := by
  refine ⟨_, Steps.of_foldlM [.run 1, .die 1] _ (admitted_true _ _) rfl, fun h => ?_⟩
  refine (stale_lock_iff (p := 2) (fun q hq => .inl ?_) rfl rfl rfl rfl).mp h rfl
  by_cases hq1 : q = 1
  · simp [hq1] at hq
  · simp [initial, next, State.goto, hq1]

end Rooter.GcomLock
