import Mathlib.Data.Nat.Bitwise

/-!
# The range of DHCP addresses

`ipcalc.sh` computes with the numbers of `awk`.  A number is stored as a double and converted to
`unsigned long` by `and`, `or` and the shifts: `conv`, which keeps all numbers of 32 bits.
-/

namespace Rooter.Ipcalc

def bitcount (c : Nat) : Nat :=
  let c := (c >>> 1 &&& 0x55555555) + (c &&& 0x55555555)
  let c := (c >>> 2 &&& 0x33333333) + (c &&& 0x33333333)
  let c := (c >>> 4 &&& 0x0f0f0f0f) + (c &&& 0x0f0f0f0f)
  let c := (c >>> 8 &&& 0x00ff00ff) + (c &&& 0x00ff00ff)
  (c >>> 16 &&& 0x0000ffff) + (c &&& 0x0000ffff)

/-- The parts between the dots are given as numbers. -/
def ip2int (conv : Nat → Nat) (parts : List Nat) : Nat :=
  parts.foldl (fun ret a => conv (conv (ret <<< 8) ||| a)) 0

def int2ip (ip : Nat) : List Nat :=
  [ip >>> 8 >>> 8 >>> 8 &&& 255, ip >>> 8 >>> 8 &&& 255, ip >>> 8 &&& 255, ip &&& 255]

def compl32 (v : Nat) : Nat := v ^^^ 0xffffffff

/-- A number or a dotted mask in the second argument, or a number behind the slash in the first one.
    The `substr` of busybox takes position 0 for the first one. -/
inductive Mask where
  | number (n : Nat)
  | dotted (parts : List Nat)
  | slash (n : Nat)

def Mask.netmask (conv : Nat → Nat) : Mask → Nat
  | number n => compl32 (2 ^ (32 - n) - 1)
  | dotted parts => ip2int conv parts
  | slash n => compl32 (2 ^ (32 - n) - 1)

/-- What is printed of the network and the range. -/
structure Range where
  broadcast : List Nat
  network : List Nat
  plen : Nat
  start : List Nat
  stop : List Nat

def ipcalc (conv : Nat → Nat) (ip : List Nat) (mask : Mask) (start : List Nat) (num : Nat) :
    Range :=
  let netmask := mask.netmask conv
  let network := ip2int conv ip &&& netmask
  let broadcast := network ||| compl32 netmask
  let start := network ||| (ip2int conv start &&& compl32 netmask)
  let limit := network + 1
  let start := if start < limit then limit else start
  let stop := start + num
  let limit := (network ||| compl32 netmask) - 1
  let stop := if limit < stop then limit else stop
  ⟨int2ip broadcast, int2ip network, 32 - bitcount (compl32 netmask), int2ip start, int2ip stop⟩

/-! ### The network -/

/-- The number of a dotted address. -/
def value (parts : List Nat) : Nat := parts.foldl (fun n a => n * 256 + a) 0

def Mask.Gives (k : Nat) : Mask → Prop
  | number n => n = k
  | dotted parts => parts = int2ip (2 ^ 32 - 2 ^ (32 - k))
  | slash n => n = k

structure InNetwork (k num : Nat) (r : Range) : Prop where
  above : value r.network < value r.start
  ordered : value r.start ≤ value r.stop
  below : value r.stop < value r.broadcast
  count : value r.stop - value r.start ≤ num
  plen : r.plen = k

theorem int2ip_eq (n : Nat) :
    int2ip n = [n / 2 ^ 8 / 2 ^ 8 / 2 ^ 8 % 256, n / 2 ^ 8 / 2 ^ 8 % 256, n / 2 ^ 8 % 256,
      n % 256] := by
  have hlow : ∀ m, m &&& 255 = m % 256 := fun m => Nat.and_two_pow_sub_one_eq_mod m 8
  simp only [int2ip, hlow, Nat.shiftRight_eq_div_pow]

theorem value_int2ip {n : Nat} (h : n < 2 ^ 32) : value (int2ip n) = n := by
  rw [int2ip_eq]
  simp only [value, List.foldl]
  omega

section

variable {conv : Nat → Nat} (hconv : ∀ n < 2 ^ 32, conv n = n) {k : Nat}

include hconv

theorem ip2int_int2ip {n : Nat} (h : n < 2 ^ 32) : ip2int conv (int2ip n) = n := by
  have hpart : ∀ m a, m < 2 ^ 24 → a < 2 ^ 8 → conv (conv (m <<< 8) ||| a) = m * 2 ^ 8 + a := by
    intro m a hm ha
    rw [hconv (m <<< 8) (by rw [Nat.shiftLeft_eq]; omega), ← Nat.shiftLeft_add_eq_or_of_lt ha,
      Nat.shiftLeft_eq, hconv _ (by omega)]
  rw [int2ip_eq, ip2int]
  simp (disch := omega) only [List.foldl, hpart]
  omega

theorem netmask_eq (hk : k ≤ 30) {mask : Mask} (h : mask.Gives k) :
    mask.netmask conv = 2 ^ 32 - 2 ^ (32 - k) := by
  have hall : ∀ k ≤ 30, compl32 (2 ^ (32 - k) - 1) = 2 ^ 32 - 2 ^ (32 - k) := by decide
  cases mask with
  | number n => exact h ▸ hall k hk
  | dotted parts =>
    have hpos := Nat.two_pow_pos (32 - k)
    rw [Mask.netmask, show parts = _ from h]
    exact ip2int_int2ip hconv (by omega)
  | slash n => exact h ▸ hall k hk

/-- The bounds are those of the host part `h` of the start, in a network of `2 ^ (32 - k)`
    addresses. -/
theorem ipcalc_eq (hk : k ≤ 30) {mask : Mask} (hmask : mask.Gives k) (a : BitVec 32)
    (start : List Nat) (num : Nat) : ∃ network, network + 2 ^ (32 - k) ≤ 2 ^ 32 ∧
    ipcalc conv (int2ip a.toNat) mask start num =
      let first := network + max 1 (ip2int conv start % 2 ^ (32 - k))
      ⟨int2ip (network + (2 ^ (32 - k) - 1)), int2ip network, k, int2ip first,
        int2ip (min (first + num) (network + (2 ^ (32 - k) - 1) - 1))⟩ := by
  have hall : ∀ k ≤ 30, compl32 (2 ^ 32 - 2 ^ (32 - k)) = 2 ^ (32 - k) - 1 ∧
    32 - bitcount (2 ^ (32 - k) - 1) = k ∧ (2 ^ 32 - 2 ^ (32 - k)) % 2 ^ (32 - k) = 0 := by decide
  obtain ⟨hcompl, hcount, hmod⟩ := hall k hk
  have hpos := Nat.two_pow_pos (32 - k)
  have hle : 2 ^ (32 - k) ≤ 2 ^ 32 := Nat.pow_le_pow_right (by decide) (by omega)
  have hnetwork : a.toNat &&& (2 ^ 32 - 2 ^ (32 - k)) ≤ 2 ^ 32 - 2 ^ (32 - k) := Nat.and_le_right
  have hdvd : 2 ^ (32 - k) ∣ a.toNat &&& (2 ^ 32 - 2 ^ (32 - k)) := by
    apply Nat.dvd_of_mod_eq_zero
    rw [Nat.and_mod_two_pow, hmod, Nat.and_zero]
  refine ⟨a.toNat &&& (2 ^ 32 - 2 ^ (32 - k)), by omega, ?_⟩
  obtain ⟨m, hm⟩ := hdvd
  have hor : ∀ x < 2 ^ (32 - k), 2 ^ (32 - k) * m ||| x = 2 ^ (32 - k) * m + x := fun x hx =>
    (Nat.two_pow_add_eq_or_of_lt hx m).symm
  have hfirst : ∀ n h : Nat, (if n + h < n + 1 then n + 1 else n + h) = n + max 1 h := by
    intro n h
    split <;> omega
  have hstop : ∀ stop limit : Nat, (if limit < stop then limit else stop) = min stop limit := by
    intro stop limit
    split <;> omega
  unfold ipcalc
  dsimp only
  rw [netmask_eq hconv hk hmask, ip2int_int2ip hconv a.isLt, hcompl, hcount, hm,
    Nat.and_two_pow_sub_one_eq_mod, hor _ (by omega), hor _ (Nat.mod_lt _ hpos), hfirst, hstop]

/-- **The range is in the network** exactly if the host part of the start is not all ones. -/
theorem ipcalc_inNetwork_iff (hk : k ≤ 30) {mask : Mask} (hmask : mask.Gives k) (a : BitVec 32)
    (start : List Nat) (num : Nat) :
    InNetwork k num (ipcalc conv (int2ip a.toNat) mask start num) ↔
      ip2int conv start % 2 ^ (32 - k) ≠ 2 ^ (32 - k) - 1 := by
  obtain ⟨network, hbound, heq⟩ := ipcalc_eq hconv hk hmask a start num
  have hsize : 2 ^ 2 ≤ 2 ^ (32 - k) := Nat.pow_le_pow_right (by decide) (by omega)
  have hlt := Nat.mod_lt (ip2int conv start) (Nat.two_pow_pos (32 - k))
  rw [heq]
  generalize 2 ^ (32 - k) = size at *
  generalize ip2int conv start % size = host at *
  constructor
  · intro h
    have hordered := h.ordered
    dsimp only at hordered
    rw [value_int2ip (by omega), value_int2ip (by omega)] at hordered
    omega
  · intro h
    constructor <;> dsimp only <;> repeat rw [value_int2ip (by omega)]
    all_goals omega

end

/-- 150 addresses from 192.168.1.100 on. -/
theorem ipcalc_inNetwork_hundred :
    InNetwork 24 150 (ipcalc id (int2ip 0xc0a80101) (.number 24) [100] 150) :=
  (ipcalc_inNetwork_iff (fun _ _ => rfl) (by decide) (show (Mask.number 24).Gives 24 from rfl)
    0xc0a80101#32 [100] 150).mpr (by decide)

/-- **With the broadcast address for the start**, the end comes before it. -/
theorem not_ipcalc_inNetwork :
    let r := ipcalc id [192, 168, 1, 1] (.number 24) [255] 150
    r.start = [192, 168, 1, 255] ∧ r.stop = [192, 168, 1, 254] ∧ ¬ InNetwork 24 150 r :=
  ⟨by decide, by decide, fun h => absurd h.ordered (by decide)⟩

end Rooter.Ipcalc
