import Rooter.Bcm4908Rename
import Rooter.Walk

/-!
# The nodes of the bootfs

`bootfs ls` and `bootfs mv` go from a node to the next one by the length that it has in the image.
They end where the file ends or something else than a node follows.  Nothing keeps a node from
leading back to itself, or to one before it; that the checksum of the image is right says nothing
about the lengths.
-/

namespace Rooter.Bcm4908

open List Memory Loop Walk

/-! ### Listing the files -/

/-- What has been printed, one name a line. -/
abbrev Printed := List (List UInt8)

/-- A round of the loop, with some of the errors of `bcm4908img_bootfs_mv`.  As there, the name has
    at most 255 octets. -/
def Host.lsStep (host : Host) (file : File) (s : Nat × Printed) :
    Next (Nat × Printed) (Printed × Except MvError Unit) :=
  let node := file.read s.1 12
  if node.length ≠ 12 then .leave (s.2, .error .read)
  else if host.field node 0 2 ≠ 0x1985 then .leave (s.2, .ok ())
  else if host.field node 2 2 ≠ 0xe001 then .again (host.next file s.1, s.2)
  else if (file.read s.1 40).length ≠ 40 then .leave (s.2, .error .read)
  else
    let name := file.read (s.1 + 40) (file.nsize s.1)
    if name.length ≠ file.nsize s.1 then .leave (s.2, .error .filename)
    else .again (host.next file s.1, s.2 ++ [name.takeWhile (· != 0)])

def Host.bootfsLs (host : Host) (fuel : Nat) (file : File) (info : Info) :
    Option (Printed × Except MvError Unit) :=
  loop (host.lsStep file) fuel (info.offsets.bootfs, [])

/-! ### The end of the walk -/

variable {host : Host} {file : File} {info : Info}

theorem lsStep_again {s t : Nat × Printed} (h : host.lsStep file s = .again t) :
    host.Passes file s.1 ∧ t.1 = host.next file s.1 := by
  simp only [Host.lsStep, length_read] at h
  split at h; · cases h
  split at h; · cases h
  next hnode hmagic =>
  split at h
  · next htype =>
    cases h
    exact ⟨⟨by omega, not_not.mp hmagic, fun heq => absurd heq htype⟩, rfl⟩
  · split at h; · cases h
    split at h; · cases h
    cases h
    exact ⟨⟨by omega, not_not.mp hmagic, fun _ => by omega⟩, rfl⟩

theorem lsStep_of_passes {s : Nat × Printed} (h : host.Passes file s.1) :
    ∃ t, host.lsStep file s = .again t ∧ t.1 = host.next file s.1 := by
  have hnode := h.node
  simp only [Host.lsStep, length_read]
  rw [if_neg (by omega), if_neg (not_not.mpr h.magic)]
  split
  · exact ⟨_, rfl, rfl⟩
  next htype =>
    have hname := h.name (not_not.mp htype)
    rw [if_neg (by omega), if_neg (by omega)]
    exact ⟨_, rfl, rfl⟩

/-! #### Lengths and offsets -/

/-- What a node adds to the offset: its length in 32 bits, rounded up to 4. -/
def Host.stride (host : Host) (file : File) (offset : Nat) : Nat :=
  (host.field (file.read offset 12) 4 4 + 3) % 0x100000000 / 4 * 4

/-- Where node number `k` of the bootfs begins, if all nodes in front of it pass. -/
def Host.nodeOffset (host : Host) (file : File) (info : Info) (k : Nat) : Nat :=
  (host.next file)^[k] info.offsets.bootfs

variable (host file info) in
/-- `bootfs ls` ends, and so does `bootfs mv` for all names. -/
def Host.BootfsEnds : Prop :=
  (∃ fuel, (host.bootfsLs fuel file info).isSome) ∧
    ∀ behind oldname newname, ∃ fuel,
      (host.bootfsMv behind fuel file info oldname newname).isSome

theorem bootfsEnds_iff_passes : host.BootfsEnds file info ↔
    ∃ k, ¬ host.Passes file (host.nodeOffset file info k) := by
  constructor
  · rintro ⟨hls, -⟩
    by_contra hall
    rw [not_exists] at hall
    exact not_ends_of_chain Prod.fst (fun s => lsStep_of_passes)
      (fun k => not_not.mp (hall k)) hls
  · rintro ⟨k, hstop⟩
    refine ⟨ends_of_chain Prod.fst (fun s t => lsStep_again) hstop,
      fun behind oldname newname => ?_⟩
    obtain ⟨fuel, hends⟩ : Ends (host.mvStep file oldname) info.offsets.bootfs :=
      ends_of_chain id (fun s t h => ⟨(mvStep_again h).1, (mvStep_again h).2.1⟩) hstop
    obtain ⟨result, hresult⟩ := Option.isSome_iff_exists.mp hends
    refine ⟨fuel, ?_⟩
    unfold Host.bootfsMv
    rw [hresult]
    split
    · rfl
    · cases result with
      | error e => rfl
      | ok offset =>
        dsimp only
        split <;> rfl

theorem nodeOffset_succ (k : Nat) : host.nodeOffset file info (k + 1) =
    (host.nodeOffset file info k + host.stride file (host.nodeOffset file info k)) %
      2 ^ host.width :=
  Function.iterate_succ_apply' _ _ _

/-- In a `size_t` that is wide enough an offset does not wrap around. -/
theorem nodeOffset_succ_of_wide (hwide : file.size + 0x100000000 ≤ 2 ^ host.width) {k : Nat}
    (hpass : host.Passes file (host.nodeOffset file info k)) : host.nodeOffset file info (k + 1) =
      host.nodeOffset file info k + host.stride file (host.nodeOffset file info k) := by
  have hnode := hpass.node
  have hlt : host.stride file (host.nodeOffset file info k) < 0x100000000 := by
    unfold Host.stride
    omega
  rw [nodeOffset_succ, Nat.mod_eq_of_lt (by omega)]

theorem nodeOffset_lt (hwide : file.size + 0x100000000 ≤ 2 ^ host.width) {i j : Nat} (hij : i < j)
    (hpass : ∀ k < j, host.Passes file (host.nodeOffset file info k))
    (hstride : ∀ k < j, host.stride file (host.nodeOffset file info k) ≠ 0) :
    host.nodeOffset file info i < host.nodeOffset file info j := by
  induction j with
  | zero => exact absurd hij (Nat.not_lt_zero i)
  | succ j ih =>
    have hstep := nodeOffset_succ_of_wide hwide (hpass j (by omega))
    have hpos := hstride j (by omega)
    rcases Nat.lt_succ_iff_lt_or_eq.mp hij with hlt | rfl
    · have hbelow := ih hlt (fun k hk => hpass k (by omega)) (fun k hk => hstride k (by omega))
      omega
    · omega

/-- **Listing and renaming end** if and only if, as long as nodes follow each other, none of their
    offsets comes back.  With a `size_t` that the offsets do not wrap around in, this means that
    none of them has a length that is rounded to zero. -/
theorem bootfs_ends_iff : (host.BootfsEnds file info ↔
      ∀ i j, i < j → (∀ k < j, host.Passes file (host.nodeOffset file info k)) →
        host.nodeOffset file info i ≠ host.nodeOffset file info j) ∧
    (file.size + 0x100000000 ≤ 2 ^ host.width → (host.BootfsEnds file info ↔
      ∀ j, (∀ k ≤ j, host.Passes file (host.nodeOffset file info k)) →
        host.stride file (host.nodeOffset file info j) ≠ 0)) := by
  have hbound : ∀ p, host.Passes file p → p < file.size := by
    intro p hp
    have hnode := hp.node
    omega
  have hiff := (@bootfsEnds_iff_passes host file info).trans
    (exists_not_passes_iff hbound info.offsets.bootfs)
  refine ⟨hiff, fun hwide => hiff.trans ⟨?_, ?_⟩⟩
  · intro hne j hpass hzero
    refine hne j (j + 1) j.lt_succ_self (fun k hk => hpass k (Nat.le_of_lt_succ hk)) ?_
    have hstep := nodeOffset_succ_of_wide hwide (hpass j (Nat.le_refl j))
    rw [hzero, Nat.add_zero] at hstep
    exact hstep.symm
  · intro hstride i j hij hpass
    refine Nat.ne_of_lt (nodeOffset_lt hwide hij hpass fun k hk => ?_)
    exact hstride k fun l hl => hpass l (by omega)

/-- A bootfs whose first node has no length, and a rootfs. -/
def zeroData : Nat → UInt8 :=
  store (store (fun _ => 0) 0 (jffs2Node 0x2003 0 [])) 0x20000 ubiMagic

/-- **An image that is accepted, where the first node leads back to itself.** -/
theorem not_bootfs_ends : parse (imageOf zeroData []) = .ok (imageInfo zeroData) ∧
    (∀ fuel, littleHost.bootfsLs fuel (imageOf zeroData []) (imageInfo zeroData) = none) ∧
    ∀ behind fuel name, littleHost.bootfsMv behind fuel (imageOf zeroData []) (imageInfo zeroData)
      name name = none := by
  obtain ⟨hlen, hmagic, htype, hnext⟩ : ((imageOf zeroData []).read 0 12).length = 12 ∧
      littleHost.field ((imageOf zeroData []).read 0 12) 0 2 = 0x1985 ∧
      littleHost.field ((imageOf zeroData []).read 0 12) 2 2 ≠ 0xe001 ∧
      littleHost.next (imageOf zeroData []) 0 = 0 := by decide +kernel
  refine ⟨parse_imageOf (by decide +kernel), fun fuel => ?_, fun behind fuel name => ?_⟩
  · have hself : littleHost.lsStep (imageOf zeroData []) (0, []) = .again (0, []) := by
      simp only [Host.lsStep]
      rw [if_neg (not_not.mpr hlen), if_neg (not_not.mpr hmagic), if_pos htype, hnext]
    exact loop_of_goes_self hself fuel
  · have hself : littleHost.mvStep (imageOf zeroData []) name 0 = .again 0 := by
      simp only [Host.mvStep]
      rw [if_neg (not_not.mpr hlen), if_neg (not_not.mpr hmagic), if_pos htype, hnext]
    unfold Host.bootfsMv
    rw [if_neg (not_not.mpr rfl), show (imageInfo zeroData).offsets.bootfs = 0 from rfl,
      loop_of_goes_self hself fuel]

end Rooter.Bcm4908
