import Rooter.MtdWrite

/-!
# The parts of a repetition

What each part of a repetition of `mtd_write` does: reading, erasing, placing a block.  The
erase loop is described for the case that exactly one more good block is wanted.  Both
loops end.
-/

namespace Rooter.Mtd

open List Flash Loop Jffs2

/-! ### Reading -/

section Fill

variable (erasesize : Nat)

@[simp]
theorem delivered_data (bytes : List UInt8) (input : List ReadResult) :
    delivered (.data bytes :: input) = bytes ++ delivered input := rfl

section

variable (r : LastRead) (buf : List UInt8) (input : List ReadResult)

include r buf input

theorem fill_append :
    (fill erasesize r buf input).2.1 ++ delivered (fill erasesize r buf input).2.2
      = buf ++ delivered input := by
  fun_induction fill erasesize r buf input with
  | case1 r buf => rfl
  | case2 r buf input hlt ih => exact ih
  | case3 r buf input hlt => rfl
  | case4 r buf input hlt => rfl
  | case5 r buf input hlt bytes room hne hle ih =>
    rw [ih, append_assoc, delivered_data]
  | case6 r buf input hlt bytes room hne hgt =>
    rw [delivered_data, delivered_data, append_assoc, ← append_assoc (bytes.take room),
      take_append_drop]
  | case7 r buf result input hge => rfl

theorem length_fill_le (h : buf.length ≤ erasesize) :
    (fill erasesize r buf input).2.1.length ≤ erasesize := by
  fun_induction fill erasesize r buf input with
  | case5 r buf input hlt bytes room hne hle ih =>
    refine ih ?_
    rw [length_append]
    omega
  | case6 r buf input hlt bytes room hne hgt =>
    rw [length_append, length_take]
    omega
  | case2 r buf input hlt ih => exact ih h
  | _ => exact h

theorem length_le_fill : buf.length ≤ (fill erasesize r buf input).2.1.length := by
  fun_induction fill erasesize r buf input with
  | case2 r buf input hlt ih => exact ih
  | case5 r buf input hlt bytes room hne hle ih =>
    rw [length_append] at ih
    exact Nat.le_trans (by omega) ih
  | case6 r buf input hlt bytes room hne hgt =>
    rw [length_append]
    exact Nat.le_add_right _ _
  | _ => exact Nat.le_refl _

end

def Undisturbed (input : List ReadResult) : Prop :=
  ∀ result ∈ input, result ≠ .failed ∧ result ≠ .data []

instance (input : List ReadResult) : Decidable (Undisturbed input) :=
  inferInstanceAs (Decidable (∀ result ∈ input, result ≠ .failed ∧ result ≠ .data []))

theorem fill_undisturbed (r : LastRead) (buf : List UInt8) (input : List ReadResult)
    (h : buf.length ≤ erasesize) (hinput : Undisturbed input) :
    Undisturbed (fill erasesize r buf input).2.2 ∧
      ((fill erasesize r buf input).2.1.length = erasesize ∨
        delivered (fill erasesize r buf input).2.2 = []) := by
  fun_induction fill erasesize r buf input with
  | case1 r buf => exact ⟨hinput, .inr rfl⟩
  | case2 r buf input hlt ih => exact ih h fun x hx => hinput x (mem_cons_of_mem _ hx)
  | case3 r buf input hlt => exact absurd rfl (hinput _ mem_cons_self).1
  | case4 r buf input hlt => exact absurd rfl (hinput _ mem_cons_self).2
  | case5 r buf input hlt bytes room hne hle ih =>
    refine ih ?_ fun x hx => hinput x (mem_cons_of_mem _ hx)
    rw [length_append]
    omega
  | case6 r buf input hlt bytes room hne hgt =>
    refine ⟨?_, .inl ?_⟩
    · intro x hx
      rcases mem_cons.mp hx with rfl | hx
      · refine ⟨ReadResult.noConfusion, fun heq => hgt ?_⟩
        exact drop_eq_nil_iff.mp (ReadResult.data.inj heq)
      · exact hinput x (mem_cons_of_mem _ hx)
    · rw [length_append, length_take]
      omega
  | case7 r buf result input hge =>
    exact ⟨hinput, .inl (Nat.le_antisymm h (Nat.le_of_not_lt hge))⟩

end Fill

/-! ### Erasing -/

namespace Writer

variable {o : Options} {s : Writer} {t : EraseState} {r : EraseResult}

theorem eraseStep_again {limit : Nat} {u : EraseState} (h : eraseStep o limit t = .again u) :
    t.e < limit + t.skipBadBlocks ∧ t.fd.dev.Alike u.fd.dev ∧
      ((t.fd.dev.isBad t.e = some true ∧ u = ⟨t.fd.seek t.fd.dev.erasesize,
          t.e + t.fd.dev.erasesize, t.skipBadBlocks + t.fd.dev.erasesize⟩) ∨
        (t.fd.dev.isBad t.e = some false ∧
          t.fd.erase ((t.e + o.partOffset) % 2 ^ 32) = (u.fd, true) ∧
          u.e = t.e + t.fd.dev.erasesize ∧ u.skipBadBlocks = t.skipBadBlocks)) := by
  unfold eraseStep at h
  split at h
  · next hlt =>
    split at h
    · cases h
    · next hbad =>
      cases h
      exact ⟨hlt, .refl _, .inl ⟨hbad, rfl⟩⟩
    · next hbad =>
      split at h
      · next fd herase =>
        cases h
        have halike := t.fd.alike_erase ((t.e + o.partOffset) % 2 ^ 32)
        rw [herase] at halike
        exact ⟨hlt, halike, .inr ⟨hbad, herase, by rw [halike.erasesize], rfl⟩⟩
      · cases h
  · cases h

theorem eraseStep_leave {limit : Nat} (h : eraseStep o limit t = .leave r) :
    (limit + t.skipBadBlocks ≤ t.e ∧ r = .ready t) ∨
      (t.e < limit + t.skipBadBlocks ∧
        ((t.fd.dev.isBad t.e = none ∧ r = .exit t.fd) ∨
          (t.fd.dev.isBad t.e = some false ∧
            ∃ fd, t.fd.erase ((t.e + o.partOffset) % 2 ^ 32) = (fd, false) ∧
              r = .failed { t with fd := fd }))) := by
  unfold eraseStep at h
  split at h
  · next hlt =>
    refine .inr ⟨hlt, ?_⟩
    split at h
    · next hbad =>
      cases h
      exact .inl ⟨hbad, rfl⟩
    · cases h
    · next hbad =>
      split at h
      · cases h
      · next fd herase =>
        cases h
        exact .inr ⟨hbad, fd, herase, rfl⟩
  · next hge =>
    cases h
    exact .inl ⟨Nat.le_of_not_lt hge, rfl⟩

/-- The erase loop ends: a bad block lies on the device, and any other brings `e` closer to
    the limit. -/
theorem exists_eraseBlocks (o : Options) (s : Writer) : ∃ r, eraseBlocks o s = some r := by
  unfold eraseBlocks
  split
  · exact ⟨_, rfl⟩
  · refine exists_loop_eq
      (fun t : EraseState => t.fd.dev.size = s.fd.dev.size)
      (fun t : EraseState =>
        s.fd.dev.size - t.e + s.w + s.buf.length + t.skipBadBlocks - t.e)
      ?_ _ _ rfl (by simp only [eraseState]; omega)
    intro t u ht hstep
    have hpos := t.fd.dev.erasesize_pos
    obtain ⟨hlt, halike, ⟨hbad, rfl⟩ | ⟨-, -, he, hskip⟩⟩ := eraseStep_again hstep
    · have hsize := (Device.bad_of_isBad_true hbad).1
      refine ⟨ht, ?_⟩
      simp only
      omega
    · refine ⟨halike.size.trans ht, ?_⟩
      omega

def EraseResult.fd : EraseResult → Descriptor
  | .ready t => t.fd
  | .failed t => t.fd
  | .exit fd => fd

theorem eraseBlocks_alike (h : eraseBlocks o s = some r) : s.fd.dev.Alike r.fd.dev := by
  unfold eraseBlocks at h
  split at h
  · cases h
    exact .refl _
  · refine loop_invariant (fun t => s.fd.dev.Alike t.fd.dev) (fun r => s.fd.dev.Alike r.fd.dev)
      (fun t u ht hstep => ht.trans (eraseStep_again hstep).2.1) ?_ _ _ r (.refl _) h
    intro t r ht hstep
    rcases eraseStep_leave hstep with ⟨-, rfl⟩ | ⟨-, ⟨-, rfl⟩ | ⟨-, fd, herase, rfl⟩⟩
    · exact ht
    · exact ht
    · have halike := t.fd.alike_erase ((t.e + o.partOffset) % 2 ^ 32)
      rw [herase] at halike
      exact ht.trans halike

/-- The state of the erase loop behind `j` bad blocks. -/
def EraseState.behind (t : EraseState) (j : Nat) : EraseState :=
  ⟨t.fd.seek (t.fd.dev.erasesize * j), t.e + t.fd.dev.erasesize * j,
    t.skipBadBlocks + t.fd.dev.erasesize * j⟩

/-- How the erase loop ends behind `j` bad blocks. -/
inductive Erases (o : Options) (t : EraseState) (j : Nat) : EraseResult → Prop
  | exit (hbad : t.fd.dev.isBad (t.behind j).e = none) : Erases o t j (.exit (t.behind j).fd)
  | failed {fd : Descriptor} (hbad : t.fd.dev.isBad (t.behind j).e = some false)
      (herase : (t.behind j).fd.erase (((t.behind j).e + o.partOffset) % 2 ^ 32) = (fd, false)) :
      Erases o t j (.failed { t.behind j with fd := fd })
  | ready {fd : Descriptor} (hbad : t.fd.dev.isBad (t.behind j).e = some false)
      (herase : (t.behind j).fd.erase (((t.behind j).e + o.partOffset) % 2 ^ 32) = (fd, true)) :
      Erases o t j (.ready { t.behind j with fd := fd, e := (t.behind j).e + t.fd.dev.erasesize })

section One

variable (hone : s.w + s.buf.length + s.skipBadBlocks = s.e + s.fd.dev.erasesize)

include hone

theorem EraseState.behind_lt (j : Nat) : (s.eraseState.behind j).e <
    s.w + s.buf.length + (s.eraseState.behind j).skipBadBlocks := by
  have hpos := s.fd.dev.erasesize_pos
  simp only [EraseState.behind, eraseState]
  omega

theorem Erases.le {j : Nat} {t : EraseState} (h : Erases o s.eraseState j (.ready t)) :
    s.w + s.buf.length + t.skipBadBlocks ≤ t.e := by
  cases h with
  | ready hbad herase =>
    simp only [EraseState.behind, eraseState]
    omega

end One

/-- With one more good block wanted, the loop skips the bad blocks and erases the next. -/
theorem eraseBlocks_spec (hn : o.noErase = false)
    (hone : s.w + s.buf.length + s.skipBadBlocks = s.e + s.fd.dev.erasesize)
    (h : eraseBlocks o s = some r) :
    ∃ j, (∀ i < j, s.fd.dev.isBad (s.e + s.fd.dev.erasesize * i) = some true) ∧
      Erases o s.eraseState j r := by
  simp only [eraseBlocks, hn] at h
  refine loop_invariant
    (fun t => ∃ j, (∀ i < j, s.fd.dev.isBad (s.e + s.fd.dev.erasesize * i) = some true) ∧
      (t = s.eraseState.behind j ∨
        Erases o s.eraseState j (.ready t)))
    (fun r => ∃ j, (∀ i < j, s.fd.dev.isBad (s.e + s.fd.dev.erasesize * i) = some true) ∧
      Erases o s.eraseState j r)
    ?_ ?_ _ _ r ⟨0, fun i hi => absurd hi (by omega), .inl rfl⟩ h
  · rintro t u ⟨j, hbads, rfl | hready⟩ hstep
    · obtain ⟨-, -, ⟨hbad, rfl⟩ | ⟨hbad, herase, he, hskip⟩⟩ := eraseStep_again hstep
      · refine ⟨j + 1, fun i hi => ?_, .inl ?_⟩
        · rcases Nat.lt_or_eq_of_le (Nat.le_of_lt_succ hi) with hlt | rfl
          · exact hbads i hlt
          · exact hbad
        · simp [EraseState.behind, Descriptor.seek, Nat.mul_succ, Nat.add_assoc]
      · refine ⟨j, hbads, .inr ?_⟩
        obtain ⟨fd, e, skip⟩ := u
        cases he
        cases hskip
        exact .ready hbad herase
    · exact absurd (eraseStep_again hstep).1 (Nat.not_lt.mpr (hready.le hone))
  · rintro t r ⟨j, hbads, ht⟩ hstep
    refine ⟨j, hbads, ?_⟩
    rcases eraseStep_leave hstep with ⟨hge, rfl⟩ | ⟨hlt, hend⟩
    · refine ht.resolve_left fun hbehind => ?_
      rw [hbehind] at hge
      exact absurd (EraseState.behind_lt hone j) (by omega)
    · rcases ht with rfl | hready
      · rcases hend with ⟨hbad, rfl⟩ | ⟨hbad, fd, herase, rfl⟩
        · exact .exit hbad
        · exact .failed hbad herase
      · exact absurd hlt (Nat.not_lt.mpr (hready.le hone))

/-- The counters agree on block `p` of a device that was `d`. -/
structure Counted (d : Device) (w : Nat) (t : EraseState) (p : Nat) : Prop where
  alike : d.Alike t.fd.dev
  counted : w + t.skipBadBlocks = t.e
  erased : t.e = d.erasesize * p
  clean : (∀ k, d.bad k = false) → t.skipBadBlocks = 0

variable {d : Device}

theorem Counted.behind {w p j : Nat} (h : Counted d w t p) (hbads : ∀ i < j, d.bad (p + i) = true) :
    Counted d w (t.behind j) (p + j) := by
  refine ⟨h.alike, ?_, ?_, fun hgood => ?_⟩
  · rw [EraseState.behind, ← h.counted, Nat.add_assoc]
  · rw [EraseState.behind, h.erased, h.alike.erasesize, Nat.mul_add]
  · cases j with
    | zero => exact h.clean hgood
    | succ j =>
      have hzero := hbads 0 (by omega)
      rw [hgood] at hzero
      cases hzero

theorem Counted.put {w p n m : Nat} (h : Counted d w t p) {fd : Descriptor}
    (halike : d.Alike fd.dev) (hn : n = d.erasesize) (hm : m = d.erasesize) :
    Counted d (w + n) ⟨fd, t.e + m, t.skipBadBlocks⟩ (p + 1) := by
  refine ⟨halike, ?_, ?_, h.clean⟩
  · simp only [← h.counted]
    omega
  · simp only [hm, h.erased, Nat.mul_succ]

theorem Counted.eraseBlocks {p : Nat} (h : Counted d s.w s.eraseState p) (hn : o.noErase = false)
    (hbuf : s.buf.length = d.erasesize) :
    ∃ j r, eraseBlocks o s = some r ∧ (∀ i < j, d.bad (p + i) = true) ∧
      p + j ≤ max p d.blocks ∧ Counted d s.w (s.eraseState.behind j) (p + j) ∧
      Erases o s.eraseState j r := by
  obtain ⟨r, hr⟩ := exists_eraseBlocks o s
  have hsize : s.fd.dev.erasesize = d.erasesize := h.alike.erasesize
  have herased : s.e = d.erasesize * p := h.erased
  have hone : s.w + s.buf.length + s.skipBadBlocks = s.e + s.fd.dev.erasesize := by
    have hcounted : s.w + s.skipBadBlocks = s.e := h.counted
    omega
  obtain ⟨j, hbads, hend⟩ := eraseBlocks_spec hn hone hr
  obtain ⟨hbad, hle⟩ := Device.bad_of_isBad_row fun i hi => by
    rw [← herased, ← hsize, ← h.alike.isBad]
    exact hbads i hi
  exact ⟨j, r, hr, hbad, hle, h.behind hbad, hend⟩

theorem Counted.isBad {w p : Nat} (h : Counted d w t p) {mark : Option Bool}
    (hbad : t.fd.dev.isBad t.e = mark) : d.isBad (d.erasesize * p) = mark := by
  rwa [h.alike.isBad, h.erased] at hbad

end Writer

theorem slice_zero (buf : List UInt8) (behind : Nat → UInt8) :
    slice buf behind 0 buf.length = buf := by
  refine ext_getElem (by simp [slice]) fun i hi hi' => ?_
  simp [slice, octet, hi']

namespace Writer

variable {o : Options} {s : Writer}

/-! ### Going on -/

/-- What a repetition does to the data and the devices: the buffer is used up and the device
    stays, or the buffer is kept for the next device. -/
structure Moves (s u : Writer) : Prop where
  input : u.input = s.input
  file : u.jffs2file = s.jffs2file ∨ u.jffs2file = none
  device : u.buf = [] ∧ u.next = s.next ∧ u.closed = s.closed ∧ s.fd.dev.Alike u.fd.dev ∨
    u.buf = s.buf ∧ s.next = u.fd.dev :: u.next ∧ ∃ fd, u.closed = s.closed ++ [fd]

variable {t : EraseState} {u : Writer} {file : ConfigFile}

theorem resume_moves (h : resume o s t = .again u) : Moves s u := by
  unfold resume at h
  split at h
  · cases h
  · next d next hnext =>
    cases h
    exact ⟨rfl, .inl rfl, .inr ⟨rfl, hnext, _, rfl⟩⟩

theorem resume_eq_again {d : Device} {next : List Device} (hnext : s.next = d :: next)
    (hw : ¬ s.w < t.e) :
    resume o s t = .again { s with
      fd := openAt o d
      closed := s.closed ++ [t.fd]
      next := next
      w := 0
      e := 0
      skipBadBlocks := t.skipBadBlocks } := by
  simp only [resume, hnext, if_neg hw]

theorem resume_again (h : resume o s t = .again u) :
    s.next = u.fd.dev :: u.next ∧ u.jffs2file = s.jffs2file ∧
      u.jffs2Replaced = s.jffs2Replaced ∧
      ∃ fd, u.closed = s.closed ++ [fd] ∧ t.fd.dev.Alike fd.dev := by
  unfold resume at h
  split at h
  · cases h
  · next d next hnext =>
    cases h
    refine ⟨hnext, rfl, rfl, _, rfl, ?_⟩
    split
    · exact t.fd.alike_write _
    · exact .refl _

theorem resume_leave {r : Outcome} (h : resume o s t = .leave r) :
    ∃ fd, .leave r = s.stop .exit fd := by
  unfold resume at h
  split at h
  · exact ⟨t.fd, h.symm⟩
  · cases h

theorem resume_eq_stop (hnext : s.next = []) : resume o s t = s.stop .exit t.fd := by
  rw [resume, hnext]

theorem writeBlock_moves (halike : s.fd.dev.Alike t.fd.dev) (h : writeBlock o s t = .again u) :
    Moves s u := by
  simp only [writeBlock] at h
  split at h
  · cases h
  · next fd result hwrite =>
    split at h
    · cases h
    · cases h
      have hfd := t.fd.alike_write (slice s.buf o.behind s.offset s.buf.length)
      rw [hwrite] at hfd
      exact ⟨rfl, .inl rfl, .inl ⟨rfl, rfl, rfl, halike.trans hfd⟩⟩

theorem place_moves (h : place o s = .again u) : Moves s u := by
  unfold place at h
  split at h
  · cases h
  · cases h
  · exact resume_moves h
  · next t hready => exact writeBlock_moves (eraseBlocks_alike hready) h

theorem replaceJffs2_again (h : replaceJffs2 o s file = .again u) :
    ∃ blocks fd mtdofs,
      configBlocks s.fd.dev.erasesize o.bigEndian file s.last = some blocks ∧
      putBlocks s.fd s.e blocks = .ok (fd, mtdofs) ∧
      u = { s with
        fd := fd
        jffs2file := none
        jffs2Replaced := true
        w := s.w + (mtdofs - s.e)
        e := mtdofs
        skip := (mtdofs - s.e : Nat) - (s.buf.length : Int)
        buf := []
        buflenRaw := 0
        offset := 0 } := by
  unfold replaceJffs2 at h
  split at h
  · cases h
  · next blocks hblocks =>
    split at h
    · cases h
    · next fd mtdofs hput =>
      cases h
      exact ⟨blocks, fd, mtdofs, hblocks, hput, rfl⟩

theorem replaceJffs2_moves (h : replaceJffs2 o s file = .again u) : Moves s u := by
  obtain ⟨blocks, fd, mtdofs, -, hput, rfl⟩ := replaceJffs2_again h
  exact ⟨rfl, .inr rfl, .inl ⟨rfl, rfl, rfl, alike_putBlocks _ hput⟩⟩

theorem handle_cases (o : Options) (s : Writer) :
    (0 < s.skip ∧
      handle o s = .again { s with skip := s.skip - s.buf.length, buf := [], buflenRaw := 0 }) ∨
    (s.skip ≤ 0 ∧ ∃ last, handle o s = place o { s with last := last }) ∨
    (s.skip ≤ 0 ∧ ∃ file, s.jffs2file = some file ∧ handle o s = replaceJffs2 o s file) ∨
    handle o s = s.stop .hang s.fd := by
  unfold handle
  split
  · next hskip => exact .inl ⟨hskip, rfl⟩
  · next hskip =>
    have hskip := Int.not_lt.mp hskip
    refine .inr ?_
    split
    · exact .inl ⟨hskip, s.last, rfl⟩
    · next file hfile =>
      split
      · split
        · exact .inr (.inl ⟨hskip, file, hfile, rfl⟩)
        · split
          · exact .inr (.inr rfl)
          · next last _ => exact .inl ⟨hskip, last, rfl⟩
      · exact .inl ⟨hskip, s.last, rfl⟩

theorem handle_eq_place (hfile : s.jffs2file = none) (hskip : s.skip ≤ 0) :
    handle o s = place o s := by
  rw [handle, if_neg (Int.not_lt.mpr hskip), hfile]

/-- With a configuration file the buffer is looked at from the offset of `-s` on. -/
theorem handle_of_file (hfile : s.jffs2file = some file) (hskip : s.skip ≤ 0) :
    handle o s =
      if o.jffs2SkipBytes ≤ s.w then
        if s.buf.take 4 = eofMarker then replaceJffs2 o s file
        else
          match parseJffs2data o.bigEndian s.buf o.behind s.last with
          | none => s.stop .hang s.fd
          | some last => place o { s with last := last }
      else place o s := by
  rw [handle, if_neg (Int.not_lt.mpr hskip)]
  split
  · next hnone => cases hnone.symm.trans hfile
  · next file' hsome =>
    cases hsome.symm.trans hfile
    rfl

theorem handle_eq_drop (hskip : 0 < s.skip) :
    handle o s = .again { s with skip := s.skip - s.buf.length, buf := [], buflenRaw := 0 } := by
  rw [handle, if_pos hskip]

theorem handle_moves (h : handle o s = .again u) : Moves s u := by
  rcases handle_cases o s with ⟨-, heq⟩ | ⟨-, last, heq⟩ | ⟨-, file, -, heq⟩ | heq
  · rw [heq] at h
    cases h
    exact ⟨rfl, .inl rfl, .inl ⟨rfl, rfl, rfl, .refl _⟩⟩
  · rw [heq] at h
    obtain ⟨hinput, hfile, hdevice⟩ := place_moves h
    exact ⟨hinput, hfile, hdevice⟩
  · rw [heq] at h
    exact replaceJffs2_moves h
  · rw [heq] at h
    cases h

/-- The buffer after the reads of a repetition, and what is left to read. -/
abbrev gather (s : Writer) : LastRead × List UInt8 × List ReadResult :=
  fill s.fd.dev.erasesize s.r s.buf s.input

def filled (s : Writer) : Writer :=
  { s with
    r := s.gather.1
    buf := padBlock s.fd.dev.erasesize s.gather.2.1
    buflenRaw := if s.buflenRaw = 0 then s.gather.2.1.length else s.buflenRaw
    input := s.gather.2.2 }

theorem finish_cases (o : Options) (s : Writer) : ∃ status fd, finish o s = s.stop status fd ∧
    (o.imageformat = .unknown ∨ s.jffs2Replaced = false → status = .success ∧ fd = s.fd) := by
  unfold finish
  split
  · next hfix =>
    refine ⟨_, _, rfl, fun hnone => ?_⟩
    rcases hnone with hnone | hnone
    · exact absurd hnone hfix.2
    · rw [hnone] at hfix
      exact absurd hfix.1 Bool.false_ne_true
  · exact ⟨_, _, rfl, fun _ => ⟨rfl, rfl⟩⟩

theorem step_eq_finish (h : s.gather.2.1 = []) :
    step o s = finish o s := by
  simp only [step, if_pos h]

theorem step_eq_stop (hfix : o.imageformat = .unknown ∨ s.jffs2Replaced = false)
    (h : s.gather.2.1 = []) :
    step o s = s.stop .success s.fd := by
  obtain ⟨status, fd, hfinish, hplain⟩ := finish_cases o s
  obtain ⟨rfl, rfl⟩ := hplain hfix
  rw [step_eq_finish h, hfinish]

theorem step_eq_handle (h : s.gather.2.1 ≠ []) :
    step o s = handle o s.filled := by
  simp only [step, if_neg h, filled]

theorem step_again (h : step o s = .again u) :
    s.gather.2.1 ≠ [] ∧ Moves s.filled u := by
  by_cases hnil : s.gather.2.1 = []
  · obtain ⟨status, fd, hfinish, -⟩ := finish_cases o s
    rw [step_eq_finish hnil, hfinish] at h
    cases h
  · rw [step_eq_handle hnil] at h
    exact ⟨hnil, handle_moves h⟩

theorem place_leave {r : Outcome} (h : place o s = .leave r) : r.status ≠ .success := by
  unfold place at h
  split at h
  · cases h
    exact Status.noConfusion
  · cases h
    exact Status.noConfusion
  · unfold resume at h
    split at h
    · cases h
      exact Status.noConfusion
    · cases h
  · simp only [writeBlock] at h
    split at h
    · cases h
      exact Status.noConfusion
    · split at h
      · cases h
        exact Status.noConfusion
      · cases h

theorem replaceJffs2_leave {r : Outcome} (h : replaceJffs2 o s file = .leave r) :
    r.status ≠ .success := by
  unfold replaceJffs2 at h
  split at h
  · cases h
    exact Status.noConfusion
  · split at h
    · cases h
      exact Status.noConfusion
    · cases h

theorem step_success {r : Outcome} (h : step o s = .leave r) (hsuccess : r.status = .success) :
    s.gather.2.1 = [] ∧
      ∃ fd, r = ⟨.success, s.closed ++ [fd], s.next, s.padded⟩ ∧
        (o.imageformat = .unknown ∨ s.jffs2Replaced = false → fd = s.fd) := by
  by_cases hnil : s.gather.2.1 = []
  · obtain ⟨status, fd, hfinish, hplain⟩ := finish_cases o s
    rw [step_eq_finish hnil, hfinish] at h
    cases h
    cases hsuccess
    exact ⟨hnil, fd, rfl, fun hfix => (hplain hfix).2⟩
  · rw [step_eq_handle hnil] at h
    rcases handle_cases o s.filled with ⟨-, heq⟩ | ⟨-, last, heq⟩ | ⟨-, file, -, heq⟩ | heq
    · rw [heq] at h
      cases h
    · rw [heq] at h
      exact absurd hsuccess (place_leave h)
    · rw [heq] at h
      exact absurd hsuccess (replaceJffs2_leave h)
    · rw [heq] at h
      cases h
      cases hsuccess

end Writer

/-! ### Termination -/

/-- What a repetition takes from: the bytes of the image, the buffer and the devices. -/
def Writer.remaining (s : Writer) : Nat :=
  (if s.buf = [] then 0 else 1) + (delivered s.input).length + s.next.length

theorem Writer.remaining_lt {o : Options} {s u : Writer} (h : s.step o = .again u) :
    u.remaining < s.remaining := by
  obtain ⟨hnil, hinput, -, hdevice⟩ := step_again h
  have hrest : (delivered u.input).length <
      (if s.buf = [] then 0 else 1) + (delivered s.input).length := by
    have hbytes := congrArg length (fill_append s.fd.dev.erasesize s.r s.buf s.input)
    have hle := length_le_fill s.fd.dev.erasesize s.r s.buf s.input
    have hpos := length_pos_iff.mpr hnil
    unfold gather at hpos
    rw [length_append, length_append] at hbytes
    rw [hinput]
    change (delivered (fill _ _ _ _).2.2).length < _
    split
    next hbuf =>
      have hzero : s.buf.length = 0 := by rw [hbuf, length_nil]
      omega
    · omega
  unfold remaining
  obtain ⟨hempty, hnext, -⟩ | ⟨-, hnext, -⟩ := hdevice
  · rw [if_pos hempty, show u.next = s.next from hnext]
    omega
  · have hlen := congrArg length (show s.next = u.fd.dev :: u.next from hnext)
    rw [length_cons] at hlen
    split <;> omega

theorem exists_mtdWrite (o : Options) (file : Option ConfigFile) (d : Device)
    (next : List Device) (buf : List UInt8) (input : List ReadResult) :
    ∃ r, mtdWrite o file d next buf input = some r := by
  refine exists_loop_eq (fun _ => True) Writer.remaining
    (fun _ _ _ h => ⟨trivial, Writer.remaining_lt h⟩) _ _ trivial ?_
  change (if buf = [] then 0 else 1) + (delivered input).length + next.length < _
  split
  · omega
  · omega

end Rooter.Mtd
