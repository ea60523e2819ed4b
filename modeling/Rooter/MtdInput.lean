import Rooter.MtdStep

/-!
# Failed reads

A failed read leaves the loop that fills the buffer, and what has been read is padded and
written like the end of the file.  A successful run has written padding for a failed read
unless the first failure met an empty buffer.  With a configuration file a short block may
also be dropped, so then only one direction holds.
-/

namespace Rooter.Mtd

open List Flash Loop Jffs2 PaddedBlocks

/-- No read fails while the buffer, which holds `n` bytes, is filled in part.  With an empty
    buffer a failure or the end of the file is the end of the run. -/
def aligned (erasesize : Nat) : Nat → List ReadResult → Bool
  | _, [] => true
  | n, .again :: input => aligned erasesize n input
  | n, .failed :: _ => n % erasesize = 0
  | n, .data bytes :: input =>
      if bytes = [] then n % erasesize = 0 || aligned erasesize 0 input
      else aligned erasesize (n + bytes.length) input

theorem aligned_mod {erasesize : Nat} (input : List ReadResult) {n m : Nat}
    (h : n % erasesize = m % erasesize) :
    aligned erasesize n input = aligned erasesize m input := by
  induction input generalizing n m with
  | nil => rfl
  | cons result input ih =>
    cases result with
    | again => exact ih h
    | failed => simp only [aligned, h]
    | data bytes =>
      simp only [aligned, h]
      split
      · rfl
      · exact ih (by rw [Nat.add_mod, h, ← Nat.add_mod])

def Cut (erasesize : Nat) (r : LastRead) (raw : Nat) : Prop := raw < erasesize ∧ r = .failed

theorem aligned_fill {erasesize : Nat} (hpos : 0 < erasesize) (r : LastRead) (buf : List UInt8)
    (input : List ReadResult) (h : buf.length ≤ erasesize) :
    aligned erasesize buf.length input = true ↔
      (fill erasesize r buf input).2.1 = [] ∨
        ¬ Cut erasesize (fill erasesize r buf input).1 (fill erasesize r buf input).2.1.length ∧
          aligned erasesize 0 (fill erasesize r buf input).2.2 = true := by
  fun_induction fill erasesize r buf input with
  | case1 r buf =>
    refine iff_of_true rfl (.inr ⟨fun hcut => ?_, rfl⟩)
    have hr := hcut.2
    rw [if_pos hcut.1] at hr
    cases hr
  | case2 r buf input hlt ih => exact ih h
  | case3 r buf input hlt =>
    simp only [aligned, decide_eq_true_eq, Nat.mod_eq_of_lt hlt, length_eq_zero_iff]
    exact ⟨.inl, fun h => h.resolve_right fun hcut => hcut.1 ⟨hlt, rfl⟩⟩
  | case4 r buf input hlt =>
    simp only [aligned, if_true, Bool.or_eq_true, decide_eq_true_eq, Nat.mod_eq_of_lt hlt,
      length_eq_zero_iff]
    refine or_congr Iff.rfl ⟨fun h => ⟨fun hcut => ?_, h⟩, And.right⟩
    cases hcut.2
  | case5 r buf input hlt bytes room hne hle ih =>
    rw [aligned, if_neg hne, ← length_append]
    refine ih ?_
    rw [length_append]
    omega
  | case6 r buf input hlt bytes room hne hgt =>
    have hdrop : bytes.drop room ≠ [] := fun hnil => hgt (drop_eq_nil_iff.mp hnil)
    have hbuf : buf ++ bytes.take room ≠ [] := by
      refine length_pos_iff.mp ?_
      rw [length_append, length_take]
      omega
    have hmod : (buf.length + bytes.length) % erasesize
        = (0 + (bytes.drop room).length) % erasesize := by
      rw [length_drop, Nat.mod_eq_sub_mod (by omega)]
      congr 1
      omega
    rw [aligned, if_neg hne, aligned, if_neg hdrop, aligned_mod input hmod]
    refine ⟨fun h => .inr ⟨fun hcut => ?_, h⟩, fun h => (h.resolve_left hbuf).2⟩
    cases hcut.2
  | case7 r buf result input hge =>
    have hlen : buf.length = erasesize := Nat.le_antisymm h (by omega)
    have hbuf : buf ≠ [] := length_pos_iff.mp (hlen ▸ hpos)
    have hmod : buf.length % erasesize = 0 % erasesize := by
      rw [hlen, Nat.mod_self, Nat.zero_mod]
    rw [aligned_mod _ hmod]
    exact ⟨fun h => .inr ⟨fun hcut => hge hcut.1, h⟩, fun h => (h.resolve_left hbuf).2⟩

/-! ### Runs -/

namespace Writer

/-- Padding has been written for a failed read, or it will be if every block to come is written. -/
def Spoilt (erasesize : Nat) (s : Writer) : Prop :=
  .failed ∈ s.padded ∨ (s.buflenRaw ≠ 0 ∧ Cut erasesize s.r s.buflenRaw) ∨
    aligned erasesize s.buf.length s.input = false

structure Loaded (erasesize : Nat) (s : Writer) : Prop where
  size : s.fd.dev.erasesize = erasesize
  sizes : ∀ d ∈ s.next, d.erasesize = erasesize
  buf : s.buf.length ≤ erasesize
  raw : s.buflenRaw ≠ 0 → s.buf.length = erasesize

variable {o : Options} {s u : Writer} {erasesize : Nat}

theorem fill_of_full (r : LastRead) {buf : List UInt8} (input : List ReadResult)
    (h : buf.length = erasesize) : fill erasesize r buf input = (r, buf, input) := by
  have hge : ¬ buf.length < erasesize := by rw [h]; exact Nat.lt_irrefl _
  cases input with
  | nil => rw [fill, if_neg hge]
  | cons result input => cases result <;> rw [fill, if_neg hge]

theorem aligned_of_full (input : List ReadResult) {n : Nat} (h : n = erasesize) :
    aligned erasesize n input = aligned erasesize 0 input :=
  aligned_mod input (by rw [h, Nat.mod_self, Nat.zero_mod])

section

variable (h : Loaded erasesize s) (hne : s.gather.2.1 ≠ [])

include h hne

theorem loaded_filled : Loaded erasesize s.filled ∧ s.filled.buflenRaw ≠ 0 := by
  have hlen : s.filled.buf.length = erasesize := by
    simp only [filled, gather, h.size]
    exact length_rightpad_of_le (length_fill_le _ _ _ _ h.buf)
  refine ⟨⟨h.size, h.sizes, Nat.le_of_eq hlen, fun _ => hlen⟩, ?_⟩
  simp only [filled]
  split
  · exact Nat.ne_of_gt (length_pos_iff.mpr hne)
  · next hraw => exact hraw

theorem spoilt_filled : Spoilt erasesize s.filled ↔ Spoilt erasesize s := by
  have hlen := (loaded_filled h hne).1.raw (loaded_filled h hne).2
  have hpos : 0 < erasesize := h.size ▸ s.fd.dev.erasesize_pos
  unfold Spoilt
  rw [aligned_of_full _ hlen]
  refine or_congr Iff.rfl ?_
  rcases Nat.eq_zero_or_pos s.buflenRaw with hraw | hraw
  · have hfill := aligned_fill hpos s.r s.buf s.input h.buf
    rw [gather, h.size] at hne
    simp only [filled, gather, hraw, h.size, ne_eq, not_true_eq_false, false_and, false_or]
    rw [← Bool.not_eq_true, ← Bool.not_eq_true, hfill]
    have hraw' := length_eq_zero_iff.not.mpr hne
    constructor
    · rintro (⟨-, hcut⟩ | hnot) (hnil | ⟨hgood, halign⟩)
      · exact hne hnil
      · exact hgood hcut
      · exact hne hnil
      · exact hnot halign
    · intro hnot
      by_cases hcut : Cut erasesize (fill erasesize s.r s.buf s.input).1
          (fill erasesize s.r s.buf s.input).2.1.length
      · exact .inl ⟨hraw', hcut⟩
      · exact .inr fun halign => hnot (.inr ⟨hcut, halign⟩)
  · have hfull := fill_of_full s.r s.input (h.raw (Nat.ne_of_gt hraw))
    simp only [filled, gather, h.size, hfull, if_neg (Nat.ne_of_gt hraw)]
    rw [aligned_of_full _ (h.raw (Nat.ne_of_gt hraw))]

end

theorem Loaded.of_moves (h : Loaded erasesize s) (hlen : s.buf.length = erasesize)
    (hmoves : Moves s u) (hraw : u.buf = [] → u.buflenRaw = 0) : Loaded erasesize u := by
  obtain ⟨-, -, ⟨hbuf, hnext, -, halike⟩ | ⟨hbuf, hnext, -⟩⟩ := hmoves
  · refine ⟨halike.erasesize.trans h.size, hnext ▸ h.sizes, ?_, absurd (hraw hbuf)⟩
    rw [hbuf]
    exact Nat.zero_le _
  · have hsizes := h.sizes
    rw [hnext] at hsizes
    exact ⟨hsizes _ mem_cons_self, fun d hd => hsizes d (mem_cons_of_mem _ hd),
      hbuf ▸ h.buf, fun _ => hbuf ▸ hlen⟩

theorem spoilt_writeBlock {t : EraseState} (h : Loaded erasesize s) (hraw : s.buflenRaw ≠ 0)
    (hwrite : writeBlock o s t = .again u) :
    (Spoilt erasesize u ↔ Spoilt erasesize s) ∧ u.buflenRaw = 0 ∧
      u.jffs2file = s.jffs2file ∧ u.skip = s.skip := by
  have hlen := h.raw hraw
  simp only [writeBlock] at hwrite
  split at hwrite
  · cases hwrite
  · split at hwrite
    · cases hwrite
    · cases hwrite
      refine ⟨?_, rfl, rfl, rfl⟩
      simp only [Spoilt, Cut, hraw, hlen, ne_eq, not_true_eq_false, false_and, false_or]
      rw [← or_assoc, aligned_of_full s.input rfl]
      refine or_congr ?_ Iff.rfl
      split
      · next hlt => simp [hlt, eq_comm]
      · next hge => simp [hge]

variable (erasesize) in
theorem spoilt_resume {t : EraseState} (hresume : resume o s t = .again u) :
    (Spoilt erasesize u ↔ Spoilt erasesize s) ∧ u.buf = s.buf ∧
      u.jffs2file = s.jffs2file ∧ u.skip = s.skip := by
  unfold resume at hresume
  split at hresume
  · cases hresume
  · cases hresume
    exact ⟨Iff.rfl, rfl, rfl, rfl⟩

theorem spoilt_place (h : Loaded erasesize s) (hraw : s.buflenRaw ≠ 0)
    (hplace : place o s = .again u) :
    Loaded erasesize u ∧ (Spoilt erasesize u ↔ Spoilt erasesize s) ∧
      u.jffs2file = s.jffs2file ∧ u.skip = s.skip := by
  have hmoves := place_moves hplace
  have hlen := h.raw hraw
  have hpos : 0 < s.buf.length := by
    rw [hlen, ← h.size]
    exact s.fd.dev.erasesize_pos
  unfold place at hplace
  split at hplace
  · cases hplace
  · cases hplace
  · obtain ⟨hspoilt, hbuf, hfile, hskip⟩ := spoilt_resume erasesize hplace
    refine ⟨h.of_moves hlen hmoves fun hnil => ?_, hspoilt, hfile, hskip⟩
    exact absurd (hbuf.symm.trans hnil) (length_pos_iff.mp hpos)
  · obtain ⟨hspoilt, hzero, hfile, hskip⟩ := spoilt_writeBlock h hraw hplace
    exact ⟨h.of_moves hlen hmoves fun _ => hzero, hspoilt, hfile, hskip⟩

theorem spoilt_of_dropped (hpadded : u.padded = s.padded) (hinput : u.input = s.input)
    (hbuf : u.buf = []) (hzero : u.buflenRaw = 0) (hlen : s.buf.length = erasesize)
    (h : Spoilt erasesize u) : Spoilt erasesize s := by
  rcases h with hmem | ⟨hraw, -⟩ | haligned
  · exact .inl (hpadded ▸ hmem)
  · exact absurd hzero hraw
  · rw [hbuf, hinput] at haligned
    rw [Spoilt, aligned_of_full _ hlen]
    exact .inr (.inr haligned)

theorem spoilt_step (h : Loaded erasesize s) (hstep : s.step o = .again u) :
    Loaded erasesize u ∧ (Spoilt erasesize u → Spoilt erasesize s) ∧
      (s.jffs2file = none → s.skip ≤ 0 →
        (Spoilt erasesize s → Spoilt erasesize u) ∧ u.jffs2file = none ∧ u.skip ≤ 0) := by
  by_cases hnil : s.gather.2.1 = []
  · obtain ⟨status, fd, hfinish, -⟩ := finish_cases o s
    rw [step_eq_finish hnil, hfinish] at hstep
    cases hstep
  · rw [step_eq_handle hnil] at hstep
    obtain ⟨hloaded, hraw⟩ := loaded_filled h hnil
    have hlen := hloaded.raw hraw
    have hmoves := handle_moves hstep
    rw [← spoilt_filled h hnil]
    rcases handle_cases o s.filled with ⟨hskip, heq⟩ | ⟨-, last, heq⟩ | ⟨-, file, hfile, heq⟩ | heq
    · rw [heq] at hstep
      cases hstep
      refine ⟨hloaded.of_moves hlen hmoves fun _ => rfl,
        spoilt_of_dropped rfl rfl rfl rfl hlen, fun _ hle => ?_⟩
      exact absurd hskip (Int.not_lt.mpr hle)
    · rw [heq] at hstep
      obtain ⟨hu, hspoilt, hufile, huskip⟩ :=
        spoilt_place (s := { s.filled with last := last }) ⟨hloaded.size, hloaded.sizes,
          hloaded.buf, hloaded.raw⟩ hraw hstep
      exact ⟨hu, hspoilt.mp, fun hfile hskip =>
        ⟨hspoilt.mpr, hufile.trans hfile, huskip ▸ hskip⟩⟩
    · rw [heq] at hstep
      obtain ⟨blocks, fd, mtdofs, -, -, rfl⟩ := replaceJffs2_again hstep
      refine ⟨hloaded.of_moves hlen hmoves fun _ => rfl,
        spoilt_of_dropped rfl rfl rfl rfl hlen, fun hnone _ => ?_⟩
      cases hnone.symm.trans hfile
    · rw [heq] at hstep
      cases hstep

theorem spoilt_success {r : Outcome} (h : Loaded erasesize s) (hstep : s.step o = .leave r)
    (hsuccess : r.status = .success) : .failed ∈ r.padded ↔ Spoilt erasesize s := by
  obtain ⟨hnil, fd, rfl, -⟩ := step_success hstep hsuccess
  have hpos : 0 < erasesize := h.size ▸ s.fd.dev.erasesize_pos
  rw [gather, h.size] at hnil
  have haligned := (aligned_fill hpos s.r s.buf s.input h.buf).mpr (.inl hnil)
  have hraw : s.buflenRaw = 0 := by
    by_contra hraw
    have hlen := h.raw hraw
    rw [fill_of_full s.r s.input hlen] at hnil
    rw [show s.buf = [] from hnil] at hlen
    exact absurd hlen (Nat.ne_of_lt hpos)
  simp [Spoilt, haligned, hraw]

end Writer

/-- **Failed reads.**  A successful run has written no padding for a failed read if every
    failure met an empty buffer, and without a configuration file only then. -/
theorem failed_not_mem_padded_iff {o : Options} {file : Option ConfigFile} {d : Device}
    {next : List Device} {buf : List UInt8} {input : List ReadResult} {r : Outcome}
    (hsizes : ∀ d' ∈ next, d'.erasesize = d.erasesize) (hbuf : buf.length ≤ d.erasesize)
    (hrun : mtdWrite o file d next buf input = some r) (hsuccess : r.status = .success) :
    (aligned d.erasesize buf.length input = true → .failed ∉ r.padded) ∧
      (file = none → .failed ∉ r.padded → aligned d.erasesize buf.length input = true) := by
  have hstart : Writer.Loaded d.erasesize (start o file d next buf input) :=
    ⟨rfl, hsizes, hbuf, absurd rfl⟩
  have hspoilt : Writer.Spoilt d.erasesize (start o file d next buf input) ↔
      aligned d.erasesize buf.length input = false := by
    simp [Writer.Spoilt, start]
  have hfinal : (.failed ∈ r.padded → aligned d.erasesize buf.length input = false) ∧
      (file = none → aligned d.erasesize buf.length input = false → .failed ∈ r.padded) := by
    refine loop_invariant
      (fun s => Writer.Loaded d.erasesize s ∧
        (Writer.Spoilt d.erasesize s → aligned d.erasesize buf.length input = false) ∧
        (file = none → s.jffs2file = none ∧ s.skip ≤ 0 ∧
          (aligned d.erasesize buf.length input = false → Writer.Spoilt d.erasesize s)))
      (fun r => r.status = .success →
        (.failed ∈ r.padded → aligned d.erasesize buf.length input = false) ∧
        (file = none → aligned d.erasesize buf.length input = false → .failed ∈ r.padded))
      ?_ ?_ _ _ r ⟨hstart, hspoilt.mp, fun hfile => ⟨hfile, Int.le_refl 0, hspoilt.mpr⟩⟩ hrun
      hsuccess
    · rintro s u ⟨hs, hback, hforth⟩ hstep
      obtain ⟨hu, huback, huforth⟩ := Writer.spoilt_step hs hstep
      refine ⟨hu, fun h => hback (huback h), fun hfile => ?_⟩
      obtain ⟨hnone, hskip, hspoil⟩ := hforth hfile
      obtain ⟨hkeep, hunone, huskip⟩ := huforth hnone hskip
      exact ⟨hunone, huskip, fun h => hkeep (hspoil h)⟩
    · rintro s r ⟨hs, hback, hforth⟩ hstep hsuccess
      rw [Writer.spoilt_success hs hstep hsuccess]
      exact ⟨hback, fun hfile => (hforth hfile).2.2⟩
  refine ⟨fun haligned hmem => ?_, fun hfile hmem => ?_⟩
  · have hfalse := hfinal.1 hmem
    rw [haligned] at hfalse
    cases hfalse
  · by_contra haligned
    exact hmem (hfinal.2 hfile (Bool.eq_false_iff.mpr haligned))

theorem failed_not_mem_padded_of_whole_block :
    ∃ r, mtdWrite plainOptions none (Device.smallNand 2 [] [] true) [] []
        [.data [1, 2, 3], .data [4], .failed, .data [5]] = some r ∧ .failed ∉ r.padded := by
  obtain ⟨r, hrun, hsuccess⟩ :
      ∃ r ∈ mtdWrite plainOptions none (Device.smallNand 2 [] [] true) [] []
      [.data [1, 2, 3], .data [4], .failed, .data [5]],
      r.status = .success := by decide
  exact ⟨r, hrun, (failed_not_mem_padded_iff
    (fun _ h => absurd h not_mem_nil) (by decide) hrun hsuccess).1
    (by decide)⟩

/-- A read fails in the middle of a block: the block is filled up, written, and the run is
    successful. -/
theorem failed_mem_padded :
    ∃ r, mtdWrite plainOptions none (Device.smallNand 2 [] [] true) [] []
        [.data [1, 2], .failed, .data [3, 4]] = some r ∧ r.status = .success ∧
      .failed ∈ r.padded ∧
      Device.goodBlocks r.devices = [[1, 2, 0xff, 0xff], [3, 4, 0xff, 0xff]] := by
  decide

end Rooter.Mtd
