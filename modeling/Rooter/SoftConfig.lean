import Rooter.Execution
import Rooter.Memory
import Rooter.ByteOrder
import Rooter.Crc32

/-!
# `rb_softconfig.c`

The driver keeps a copy of the flash segment `soft_config` in a buffer.  Storing an attribute
changes the buffer and clears its CRC field, the mark for changes that are not yet in the flash;
storing a true value in `commit` computes the CRC and writes the buffer back, a false value
reads the flash again.  `sc_commit_store` looks at the mark under one lock and does its work
under another one, and after a failure it clears the field without a lock.

The sections that hold a lock are atomic steps, and so are the return from a commit and the
clearing of the field.  What a failed access leaves behind is arbitrary.
-/

namespace Rooter.SoftConfig

open Execution Memory ByteOrder

/-! ### The driver -/

/-- The segment and the machine; `crc32` is that of the kernel. -/
structure Device where
  size : Nat
  bigEndian : Bool
  crc32 : BitVec 32 → List UInt8 → BitVec 32

inductive Task where
  | idle
  | tested (flush : Bool) -- the CRC field was zero, the input was read
  | failed                -- an access failed, before `RB_SC_CLRCRC`
  | done                  -- nothing to do, or all accesses succeeded, before the return
deriving DecidableEq, Repr

/-- `result` is what the last step returned to the caller of a commit, if it returned. -/
structure State where
  buf : Nat → UInt8
  flash : Nat → UInt8
  task : Nat → Task
  result : Option Bool

/-- How the accesses of a section end: with success, or with an error or a short count and any
    content of what was to be filled. -/
inductive Io where
  | complete
  | broken (content : Nat → UInt8)

inductive Action where
  | attrStore (pos : Nat) (val : Option (BitVec 32))
  | commitTest (p : Nat) (flush : Option Bool) (found : Bool)
  | commitSection (p : Nat) (io : Io)
  | commitClear (p : Nat)
  | commitReturn (p : Nat)
  | commitShow

variable (d : Device)

/-- `RB_SC_GETCRC` -/
def Device.getCrc (mem : Nat → UInt8) : Nat := value d.bigEndian (load mem 4 4)

/-- `RB_SC_SETCRC`, and `RB_SC_CLRCRC` for zero -/
def Device.setCrc (mem : Nat → UInt8) (crc : BitVec 32) : Nat → UInt8 :=
  store mem 4 (bytes d.bigEndian 4 crc.toNat)

/-- `~crc32(~0, sc_buf, sc_buflen)` -/
def Device.checksum (mem : Nat → UInt8) : BitVec 32 :=
  ~~~ d.crc32 0xffffffff#32 (load mem 0 d.size)

def State.goto (s : State) (p : Nat) (task : Task) (result : Option Bool) : State :=
  { s with task := Function.update s.task p task, result := result }

/-- `sc_tag_store_u32tvs`, `sc_tag_store_boolts` and `sc_tag_store_bootdelays`: a value that is
    refused changes nothing. -/
def Device.attrStore (s : State) (pos : Nat) : Option (BitVec 32) → State
  | none => { s with result := none }
  | some val =>
      { s with
        buf := d.setCrc (store s.buf pos (bytes d.bigEndian 4 val.toNat)) 0
        result := none }

/-- `sc_commit_store` up to the second lock: `flush` is what `kstrtobool` reads, `found` whether
    the device is there. -/
def Device.commitTest (s : State) (p : Nat) (flush : Option Bool) (found : Bool) : State :=
  if d.getCrc s.buf ≠ 0 then s.goto p .done none -- nothing to do
  else
    match flush with
    | none => s.goto p .idle (some false)
    | some flush => if found then s.goto p (.tested flush) none else s.goto p .idle (some false)

def Device.commitSection (s : State) (p : Nat) (flush : Bool) (io : Io) : State :=
  if flush then
    let buf := d.setCrc s.buf (d.checksum s.buf)
    match io with
    | .complete => { s with buf := buf, flash := buf }.goto p .done none
    | .broken content => { s with buf := buf, flash := content }.goto p .failed none
  else
    match io with
    | .complete => { s with buf := s.flash }.goto p .done none
    | .broken content => { s with buf := content }.goto p .failed none

def Device.step (s : State) : Action → Option State
  | .attrStore pos val => some (d.attrStore s pos val)
  | .commitTest p flush found =>
      if s.task p = .idle then some (d.commitTest s p flush found) else none
  | .commitSection p io =>
      match s.task p with
      | .tested flush => some (d.commitSection s p flush io)
      | _ => none
  | .commitClear p =>
      if s.task p = .failed then some ({ s with buf := d.setCrc s.buf 0 }.goto p .idle (some false))
      else none
  | .commitReturn p => if s.task p = .done then some (s.goto p .idle (some true)) else none
  | .commitShow => some { s with result := none }

/-- `rb_softconfig_init` has read the flash. -/
def initial (flash : Nat → UInt8) : State := ⟨flash, flash, fun _ => .idle, none⟩

/-! ### The property and its condition -/

def Device.Valid (mem : Nat → UInt8) : Prop :=
  d.getCrc mem = (d.checksum (d.setCrc mem 0)).toNat

instance (mem : Nat → UInt8) : Decidable (d.Valid mem) := inferInstanceAs (Decidable (_ = _))

def Device.Committed (s : State) : Prop := s.result = some true → d.Valid s.flash

instance (s : State) : Decidable (d.Committed s) := inferInstanceAs (Decidable (_ → _))

def NonePending (s : State) : Prop := ∀ p, s.task p ≠ .failed

def NoneReturning (s : State) : Prop := ∀ p, s.task p ≠ .done

/-- The steps that keep the property.  A commit that finds nothing to do does so when no failed
    commit has still to clear the field, or the flash is valid all the same.  A commit that
    writes finds the field still zero, one that reads again finds a valid image, and a write that
    fails does not break the image under a commit that is about to return. -/
def Device.Harmless (s : State) : Action → Prop
  | .commitTest _ _ _ => d.getCrc s.buf = 0 ∨ NonePending s ∨ d.Valid s.flash
  | .commitSection p .complete =>
      (s.task p = .tested true → d.getCrc s.buf = 0) ∧
      (s.task p = .tested false → d.Valid s.flash)
  | .commitSection p (.broken content) =>
      s.task p = .tested true → NoneReturning s ∨ d.Valid content
  | _ => True

/-! ### The CRC field -/

variable {d}

theorem getCrc_setCrc (mem : Nat → UInt8) (crc : BitVec 32) :
    d.getCrc (d.setCrc mem crc) = crc.toNat := by
  have hload := @load_store_self _ mem 4 (bytes d.bigEndian 4 crc.toNat)
  rw [length_bytes] at hload
  rw [Device.getCrc, Device.setCrc, hload]
  exact value_bytes _ crc.isLt

theorem setCrc_setCrc (mem : Nat → UInt8) (crc crc' : BitVec 32) :
    d.setCrc (d.setCrc mem crc) crc' = d.setCrc mem crc' := by
  apply store_same
  simp

theorem setCrc_zero {mem : Nat → UInt8} (h : d.getCrc mem = 0) : d.setCrc mem 0 = mem := by
  have hbytes := bytes_value d.bigEndian (load mem 4 4)
  rw [length_load] at hbytes
  rw [Device.getCrc] at h
  rw [h] at hbytes
  change store mem 4 (bytes d.bigEndian 4 0) = mem
  rw [hbytes, store_load_self]

theorem valid_commit {mem : Nat → UInt8} (h : d.getCrc mem = 0) :
    d.Valid (d.setCrc mem (d.checksum mem)) := by
  rw [Device.Valid, getCrc_setCrc, setCrc_setCrc, setCrc_zero h]

/-! ### Runs -/

/-- Where the buffer counts as clean, the flash is valid or a failure is still to be noted; where
    a commit is about to return success, the flash is valid. -/
structure Device.Inv (d : Device) (s : State) : Prop where
  clean : d.getCrc s.buf ≠ 0 → d.Valid s.flash ∨ ∃ p, s.task p = .failed
  returning : ∀ p, s.task p = .done → d.Valid s.flash

variable {s : State}

theorem inv_of_valid (h : d.Valid s.flash) : d.Inv s :=
  ⟨fun _ => .inl h, fun _ _ => h⟩

theorem inv_initial {flash : Nat → UInt8} (h : d.getCrc flash = 0 ∨ d.Valid flash) :
    d.Inv (initial flash) := by
  constructor
  · intro hne
    exact .inl (h.resolve_left hne)
  · intro p hp
    simp [initial] at hp

theorem getCrc_cleared (mem : Nat → UInt8) : d.getCrc (d.setCrc mem 0) = 0 :=
  getCrc_setCrc mem 0

/-- A commit that moves on, but not to its return, leaves the others about to return. -/
theorem done_of_update {tasks : Nat → Task} {p q : Nat} {task : Task}
    (hq : Function.update tasks p task q = .done) (htask : task ≠ .done) : tasks q = .done := by
  have hqp : q ≠ p := by
    rintro rfl
    exact htask (by simpa using hq)
  simpa [hqp] using hq

/-- A commit that has not failed moves on, and is about to return only over a valid flash. -/
theorem inv_goto {p : Nat} {task : Task} {result : Option Bool} (h : d.Inv s)
    (hp : s.task p ≠ .failed) (hdone : task = .done → d.Valid s.flash) :
    d.Inv (s.goto p task result) := by
  constructor
  · intro hne
    rcases h.clean hne with hvalid | ⟨q, hq⟩
    · exact .inl hvalid
    · have hqp : q ≠ p := by
        rintro rfl
        exact hp hq
      exact .inr ⟨q, by simpa [State.goto, hqp] using hq⟩
  · intro q hq
    by_cases hqp : q = p
    · subst hqp
      exact hdone (by simpa [State.goto] using hq)
    · exact h.returning q (by simpa [State.goto, hqp] using hq)

theorem inv_commitTest {p : Nat} {flush : Option Bool} {found : Bool} (h : d.Inv s)
    (hok : d.Harmless s (.commitTest p flush found)) (hidle : s.task p = .idle) :
    d.Inv (d.commitTest s p flush found) := by
  have hp : s.task p ≠ .failed := by simp [hidle]
  unfold Device.commitTest
  split
  · -- nothing to do: the buffer counts as clean
    next hne =>
    apply inv_goto h hp
    intro _
    rcases hok with hzero | hnone | hvalid
    · exact absurd hzero hne
    · rcases h.clean hne with hvalid | ⟨q, hq⟩
      · exact hvalid
      · exact absurd hq (hnone q)
    · exact hvalid
  · rcases flush with _ | flush
    · exact inv_goto h hp (by simp)
    · cases found <;> exact inv_goto h hp (by simp)

theorem inv_commitSection {p : Nat} {flush : Bool} {io : Io} (h : d.Inv s)
    (hok : d.Harmless s (.commitSection p io)) (htask : s.task p = .tested flush) :
    d.Inv (d.commitSection s p flush io) := by
  unfold Device.commitSection
  rcases io with _ | content <;> rcases flush with _ | _
  · exact inv_of_valid (hok.2 htask)
  · exact inv_of_valid (valid_commit (hok.1 htask))
  · -- the flash was only read
    constructor
    · exact fun _ => .inr ⟨p, by simp [State.goto]⟩
    · intro q hq
      exact h.returning q (done_of_update hq (by simp))
  · rcases hok htask with hnone | hvalid
    · constructor
      · exact fun _ => .inr ⟨p, by simp [State.goto]⟩
      · intro q hq
        exact absurd (done_of_update hq (by simp)) (hnone q)
    · exact inv_of_valid hvalid

theorem step_inv {t : State} {a : Action} (h : d.Inv s) (hok : d.Harmless s a)
    (hstep : d.step s a = some t) : d.Inv t := by
  cases a with
  | attrStore pos val =>
    cases hstep
    rcases val with _ | val
    · exact ⟨h.clean, h.returning⟩
    · exact ⟨absurd (getCrc_cleared _), h.returning⟩
  | commitTest p flush found =>
    obtain ⟨hidle, ⟨⟩⟩ := Option.ite_none_right_eq_some.mp hstep
    exact inv_commitTest h hok hidle
  | commitSection p io =>
    simp only [Device.step] at hstep
    split at hstep
    · next flush htask =>
      cases hstep
      exact inv_commitSection h hok htask
    · cases hstep
  | commitClear p =>
    obtain ⟨-, ⟨⟩⟩ := Option.ite_none_right_eq_some.mp hstep
    constructor
    · exact absurd (getCrc_cleared _)
    · intro q hq
      exact h.returning q (done_of_update hq (by simp))
  | commitReturn p =>
    obtain ⟨hdone, ⟨⟩⟩ := Option.ite_none_right_eq_some.mp hstep
    exact inv_of_valid (h.returning p hdone)
  | commitShow =>
    cases hstep
    exact ⟨h.clean, h.returning⟩

theorem step_committed {t : State} {a : Action} (h : d.Inv s) (hstep : d.step s a = some t) :
    d.Committed t := by
  intro hresult
  cases a with
  | attrStore pos val =>
    cases hstep
    rcases val with _ | val <;> simp [Device.attrStore] at hresult
  | commitTest p flush found =>
    obtain ⟨-, ⟨⟩⟩ := Option.ite_none_right_eq_some.mp hstep
    unfold Device.commitTest at hresult
    split at hresult
    · simp [State.goto] at hresult
    · rcases flush with _ | flush
      · simp [State.goto] at hresult
      · cases found <;> simp [State.goto] at hresult
  | commitSection p io =>
    simp only [Device.step] at hstep
    split at hstep
    · next flush htask =>
      cases hstep
      rcases io with _ | content <;> rcases flush with _ | _ <;>
        simp [Device.commitSection, State.goto] at hresult
    · cases hstep
  | commitClear p =>
    obtain ⟨-, ⟨⟩⟩ := Option.ite_none_right_eq_some.mp hstep
    simp [State.goto] at hresult
  | commitReturn p =>
    obtain ⟨hdone, ⟨⟩⟩ := Option.ite_none_right_eq_some.mp hstep
    exact h.returning p hdone
  | commitShow =>
    cases hstep
    simp at hresult

/-- **Committed soft-config carries a valid checksum**: from a flash that is valid, or marked as
    changed, every run of harmless steps leaves a valid image whenever a commit returns success. -/
theorem committed_of_harmless {flash : Nat → UInt8} (hstart : d.getCrc flash = 0 ∨ d.Valid flash)
    {t : State} (hrun : Steps d.step d.Harmless (initial flash) t) : d.Committed t := by
  have hboth : d.Inv t ∧ d.Committed t := by
    apply hrun.invariant
    · exact ⟨inv_initial hstart, fun h => absurd h (by simp [initial])⟩
    · intro s a t hs hok hstep
      exact ⟨step_inv hs.1 hok hstep, step_committed hs.1 hstep⟩
  exact hboth.2

/-! ### A small device -/

def smallDevice : Device := ⟨16, false, Crc32.crc⟩

/-- The magic `Soft`, the field `crc`, and the tag of the boot delay with the value 7. -/
def smallImage (crc : BitVec 32) : Nat → UInt8 :=
  store (fun _ => 0xff) 0
    ([0x53, 0x6f, 0x66, 0x74] ++ bytes false 4 crc.toNat ++
      [0x02, 0x00, 0x04, 0x00, 0x07, 0x00, 0x00, 0x00])

def smallFlash : Nat → UInt8 := smallImage (smallDevice.checksum (smallImage 0))

def erased : Nat → UInt8 := fun _ => 0xff

def oneCommit : List Action :=
  [.attrStore 12 (some 1), .commitTest 0 (some true) true, .commitSection 0 .complete,
    .commitReturn 0]

/-- Every test finds changes, every section what its test found, and no access fails. -/
def Device.Undisturbed (d : Device) (s : State) : Action → Prop
  | .commitTest _ _ _ => d.getCrc s.buf = 0
  | .commitSection p .complete =>
      (s.task p = .tested true → d.getCrc s.buf = 0) ∧
      (s.task p = .tested false → d.Valid s.flash)
  | .commitSection _ (.broken _) => False
  | _ => True

instance (s : State) : DecidablePred (smallDevice.Undisturbed s)
  | .attrStore _ _ => isTrue trivial
  | .commitTest _ _ _ => inferInstanceAs (Decidable (_ = _))
  | .commitSection _ .complete => inferInstanceAs (Decidable ((_ → _) ∧ (_ → _)))
  | .commitSection _ (.broken _) => isFalse id
  | .commitClear _ => isTrue trivial
  | .commitReturn _ => isTrue trivial
  | .commitShow => isTrue trivial

theorem harmless_of_undisturbed {a : Action} (h : smallDevice.Undisturbed s a) :
    smallDevice.Harmless s a := by
  cases a with
  | commitTest p flush found => exact .inl h
  | commitSection p io =>
    cases io with
    | complete => exact h
    | broken content => exact h.elim
  | _ => trivial

theorem committed_of_harmless_small : smallDevice.Valid smallFlash ∧
    ∃ t, Steps smallDevice.step smallDevice.Harmless (initial smallFlash) t ∧
      t.result = some true ∧ t.flash 12 = 1 ∧ smallDevice.Valid t.flash := by
  have hvalid : smallDevice.Valid smallFlash := by decide +kernel
  obtain ⟨t, hrun, hresult, hvalue⟩ : ∃ t ∈ oneCommit.foldlM smallDevice.step (initial smallFlash),
      t.result = some true ∧ t.flash 12 = 1 := by decide +kernel
  have hadmitted : Admitted smallDevice.step smallDevice.Undisturbed (initial smallFlash)
      oneCommit := by decide +kernel
  have hsteps := Steps.of_foldlM oneCommit (initial smallFlash)
    (hadmitted.imp (fun _ _ => harmless_of_undisturbed) oneCommit (initial smallFlash)) hrun
  exact ⟨hvalid, t, hsteps, hresult, hvalue,
    committed_of_harmless (.inr hvalid) hsteps hresult⟩

/-- A commit returned success and left an image with a wrong checksum. -/
def Violated (flash : Nat → UInt8) (actions : List Action) : Prop :=
  ∃ t, actions.foldlM smallDevice.step (initial flash) = some t ∧ ¬ smallDevice.Committed t

instance (flash : Nat → UInt8) (actions : List Action) : Decidable (Violated flash actions) :=
  inferInstanceAs (Decidable (∃ _, _ ∧ _))

/-- **A commit returns success over a wrong checksum**: when two commits pass the test before one
    of them writes; when a commit finds nothing to do between the failure of another one and the
    clearing of the field; when a commit reads again after a failure; when a commit fails before
    another one has returned; and when the flash was wrong from the start. -/
theorem not_committed_small : smallDevice.Valid smallFlash ∧
    Violated smallFlash [.attrStore 12 (some 1), .commitTest 0 (some true) true,
      .commitTest 1 (some true) true, .commitSection 0 .complete, .commitReturn 0,
      .commitSection 1 .complete, .commitReturn 1] ∧
    Violated smallFlash [.attrStore 12 (some 1), .commitTest 0 (some true) true,
      .commitSection 0 (.broken erased), .commitTest 1 (some true) true, .commitReturn 1] ∧
    Violated smallFlash [.attrStore 12 (some 1), .commitTest 0 (some true) true,
      .commitSection 0 (.broken erased), .commitClear 0, .commitTest 1 (some false) true,
      .commitSection 1 .complete, .commitReturn 1] ∧
    Violated smallFlash [.attrStore 12 (some 1), .commitTest 0 (some true) true,
      .commitSection 0 .complete, .attrStore 12 (some 2), .commitTest 1 (some true) true,
      .commitSection 1 (.broken erased), .commitReturn 0] ∧
    Violated (smallImage 1) [.commitTest 0 (some true) true, .commitReturn 0] := by
  exact ⟨by decide +kernel, by decide +kernel, by decide +kernel, by decide +kernel,
    by decide +kernel, by decide +kernel⟩

/-! ### The status -/

inductive Operation where
  | attrStore (pos : Nat) (val : Option (BitVec 32))
  | commit (flush : Option Bool) (found : Bool) (io : Io)

/-- `sc_commit_store` from its beginning to its end. -/
def Device.commitStore (d : Device) (s : State) (flush : Option Bool) (found : Bool) (io : Io) :
    State :=
  let s := d.commitTest s 0 flush found
  match s.task 0 with
  | .tested flush =>
      let s := d.commitSection s 0 flush io
      match s.task 0 with
      | .failed => { s with buf := d.setCrc s.buf 0 }.goto 0 .idle (some false)
      | _ => s.goto 0 .idle (some true)
  | .done => s.goto 0 .idle (some true)
  | _ => s

/-- One operation after the other. -/
def Device.operate (d : Device) (s : State) : Operation → Option State
  | .attrStore pos val => some (d.attrStore s pos val)
  | .commit flush found io => some (d.commitStore s flush found io)

/-- `sc_commit_show` shows "clean" exactly if the buffer is what is in the flash. -/
def Device.Truthful (d : Device) (s : State) : Prop :=
  d.getCrc s.buf ≠ 0 ↔ load s.buf 0 d.size = load s.flash 0 d.size

/-- The flash gets no CRC field that is zero, neither by a commit nor by one that fails. -/
def Device.KeepsCrc (d : Device) (s : State) : Operation → Prop
  | .commit (some true) true .complete => d.getCrc s.buf = 0 → d.checksum s.buf ≠ 0
  | .commit (some true) true (.broken content) => d.getCrc s.buf = 0 → d.getCrc content ≠ 0
  | _ => True

theorem operate_cases {t : State} {a : Operation} (h : d.operate s a = some t) :
    t.flash = s.flash ∧ (t.buf = s.buf ∨ d.getCrc t.buf = 0 ∨ t.buf = s.flash) ∨
      d.getCrc s.buf = 0 ∧ a = .commit (some true) true .complete ∧
        t.buf = d.setCrc s.buf (d.checksum s.buf) ∧ t.flash = t.buf ∨
      d.getCrc s.buf = 0 ∧ d.getCrc t.buf = 0 ∧
        a = .commit (some true) true (.broken t.flash) := by
  cases a with
  | attrStore pos val =>
    cases h
    cases val with
    | none => exact .inl ⟨rfl, .inl rfl⟩
    | some val => exact .inl ⟨rfl, .inr (.inl (getCrc_cleared _))⟩
  | commit flush found io =>
    cases h
    unfold Device.commitStore Device.commitTest
    by_cases hcrc : d.getCrc s.buf = 0
    · rw [if_neg (not_not.mpr hcrc)]
      rcases flush with _ | flush
      · simp [State.goto]
      cases found with
      | false => simp [State.goto]
      | true =>
        cases flush <;> cases io <;> simp [State.goto, Device.commitSection, getCrc_setCrc, hcrc]
    · rw [if_pos hcrc]
      simp [State.goto]

/-- A clean buffer is in the flash, and the flash is never marked as changed. -/
structure Device.InSync (d : Device) (s : State) : Prop where
  clean : d.getCrc s.buf ≠ 0 → s.buf = s.flash
  flash : d.getCrc s.flash ≠ 0

theorem operate_inSync {t : State} {a : Operation} (h : d.InSync s) (hok : d.KeepsCrc s a)
    (hstep : d.operate s a = some t) : d.InSync t := by
  rcases operate_cases hstep with ⟨hflash, hbuf⟩ | ⟨hcrc, rfl, hbuf, hflash⟩ | ⟨hcrc, hbuf, rfl⟩
  · refine ⟨fun hclean => ?_, hflash ▸ h.flash⟩
    rcases hbuf with hbuf | hzero | hbuf
    · rw [hbuf] at hclean ⊢
      rw [hflash, h.clean hclean]
    · exact absurd hzero hclean
    · rw [hbuf, hflash]
  · refine ⟨fun _ => hflash.symm, ?_⟩
    rw [hflash, hbuf, getCrc_setCrc]
    exact fun hzero => hok hcrc (BitVec.eq_of_toNat_eq hzero)
  · exact ⟨absurd hbuf, hok hcrc⟩

theorem getCrc_congr {mem mem' : Nat → UInt8} (hsize : 8 ≤ d.size)
    (h : load mem 0 d.size = load mem' 0 d.size) : d.getCrc mem = d.getCrc mem' := by
  have hfield : ∀ mem : Nat → UInt8, load mem 4 4 = ((load mem 0 d.size).drop 4).take 4 := by
    intro mem
    rw [drop_load mem (by omega), take_load mem (by omega)]
  rw [Device.getCrc, Device.getCrc, hfield mem, hfield mem', h]

/-- **The status is true** behind any operations, if the CRC field of the flash is not zero from the
    start and never becomes so. -/
theorem truthful_of_keepsCrc (hsize : 8 ≤ d.size) {flash : Nat → UInt8}
    (hstart : d.getCrc flash ≠ 0) {t : State}
    (hrun : Steps d.operate d.KeepsCrc (initial flash) t) : d.Truthful t := by
  have hsync : d.InSync t := by
    refine hrun.invariant ⟨fun _ => rfl, hstart⟩ ?_
    intro s a t hs hok hstep
    exact operate_inSync hs hok hstep
  refine ⟨fun hclean => by rw [hsync.clean hclean], fun hsame => ?_⟩
  rw [getCrc_congr hsize hsame]
  exact hsync.flash

instance (s : State) : DecidablePred (d.KeepsCrc s)
  | .commit (some true) true .complete => inferInstanceAs (Decidable (_ → _))
  | .commit (some true) true (.broken _) => inferInstanceAs (Decidable (_ → _))
  | .commit (some true) false _ => isTrue trivial
  | .commit (some false) _ _ => isTrue trivial
  | .commit none _ _ => isTrue trivial
  | .attrStore _ _ => isTrue trivial

/-- A value is stored and committed, and another one is stored and discarded. -/
def discarded : List Operation :=
  [.attrStore 12 (some 1), .commit (some true) true .complete, .attrStore 12 (some 2),
    .commit (some false) true .complete]

theorem truthful_of_keepsCrc_small : smallDevice.getCrc smallFlash ≠ 0 ∧
    ∃ t, discarded.foldlM smallDevice.operate (initial smallFlash) = some t ∧
      t.buf 12 = 1 ∧ smallDevice.Truthful t := by
  have hcrc : smallDevice.getCrc smallFlash ≠ 0 := by decide +kernel
  obtain ⟨t, hrun, hvalue⟩ : ∃ t ∈ discarded.foldlM smallDevice.operate (initial smallFlash),
      t.buf 12 = 1 := by decide +kernel
  have hadmitted : Admitted smallDevice.operate smallDevice.KeepsCrc (initial smallFlash)
      discarded := by decide +kernel
  exact ⟨hcrc, t, hrun, hvalue, truthful_of_keepsCrc (by decide) hcrc
    (Steps.of_foldlM discarded _ hadmitted hrun)⟩

/-- An image with a zero in its field counts as changed when it has just been read. -/
theorem not_truthful_small : ¬ smallDevice.Truthful (initial (smallImage 0)) := by
  intro h
  exact h.mpr rfl (by decide +kernel)

end Rooter.SoftConfig
