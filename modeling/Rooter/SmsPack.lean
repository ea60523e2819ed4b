import Rooter.SmsHex
import Rooter.SmsEncode

/-!
# Packing septets, and unpacking them again

The eight branches of `pack` write the bits of the septets one after the other into
octets.  Read as a bit stream, the octets are the septets with zeros behind them, and
the bit reader of `pdu2text` gets the septets back.
-/

namespace Rooter.SmsEncode

open List LuaString BitStream SmsRead

/-! ### One septet more -/

/-- The octets written so far are the septets `xs`, with zeros up to the next octet. -/
structure Packed (xs : List Nat) (p : Packing) : Prop where
  ii : p.ii = xs.length % 8 + 1
  bits : p.udtab.reverse.flatMap (bitsOf 8)
    = xs.flatMap (bitsOf 7) ++ replicate (xs.length % 8) false
  last : ∀ o, p.udtab.head? = some o → o < 2 ^ (8 - xs.length % 8)
  octets : ∀ o ∈ p.udtab, o < 256

variable {ch : Nat} {os xs : List Nat} {p : Packing}

/-- A branch with `q` bits free: the low bits go into the last octet, the high bits into the
    next one. -/
theorem spread_bits {q o : Nat} (hq : q ≤ 7) (ho : o < 2 ^ (8 - q)) (hch : ch < 128) :
    bitsOf 8 ((ch % 2 ^ q) <<< (8 - q) ||| o) ++ bitsOf 8 (ch / 2 ^ q)
      = bitsOf (8 - q) o ++ bitsOf 7 ch ++ replicate (q + 1) false := by
  have hsum : (ch % 2 ^ q) <<< (8 - q) ||| o = 2 ^ (8 - q) * (ch % 2 ^ q) + o := by
    rw [← Nat.shiftLeft_add_eq_or_of_lt ho, Nat.shiftLeft_eq, Nat.mul_comm]
  have hfirst : bitsOf 8 ((ch % 2 ^ q) <<< (8 - q) ||| o) = bitsOf (8 - q) o ++ bitsOf q ch := by
    have hlow : bitsOf (8 - q) (2 ^ (8 - q) * (ch % 2 ^ q) + o) = bitsOf (8 - q) o := by
      refine bitsOf_congr fun i hi => ?_
      rw [Nat.testBit_two_pow_mul_add _ ho, if_pos hi]
    have hhigh : bitsOf q (ch % 2 ^ q) = bitsOf q ch := by
      refine bitsOf_congr fun i hi => ?_
      simp [hi]
    rw [hsum, show 8 = 8 - q + q by omega, Nat.add_sub_cancel, bitsOf_add, hlow,
      Nat.mul_add_div (Nat.two_pow_pos _), Nat.div_eq_of_lt ho, Nat.add_zero, hhigh]
  have hsecond : bitsOf 8 (ch / 2 ^ q)
      = bitsOf (7 - q) (ch / 2 ^ q) ++ replicate (q + 1) false := by
    have hlt : ch / 2 ^ q < 2 ^ (7 - q) := by
      rw [Nat.div_lt_iff_lt_mul (Nat.two_pow_pos q), ← Nat.pow_add, Nat.sub_add_cancel hq]
      exact hch
    rw [← bitsOf_of_lt hlt, show 7 - q + (q + 1) = 8 by omega]
  have hseptet : bitsOf q ch ++ bitsOf (7 - q) (ch / 2 ^ q) = bitsOf 7 ch := by
    rw [← bitsOf_add, show q + (7 - q) = 7 by omega]
  rw [hfirst, hsecond, ← hseptet]
  simp only [append_assoc]

theorem Packed.exists_last (h : Packed xs p) {q : Nat} (hq : xs.length % 8 = q) (hpos : 1 ≤ q) :
    ∃ o done, p.udtab = o :: done ∧ o < 2 ^ (8 - q) ∧
      done.reverse.flatMap (bitsOf 8) ++ bitsOf (8 - q) o = xs.flatMap (bitsOf 7) := by
  cases hudtab : p.udtab with
  | nil =>
    -- no octets hold no septets
    have hbits := congrArg length h.bits
    rw [hudtab, length_append] at hbits
    simp at hbits
    omega
  | cons o done =>
    have hlast := h.last o (by rw [hudtab]; rfl)
    rw [hq] at hlast
    refine ⟨o, done, rfl, hlast, ?_⟩
    have hpad : bitsOf 8 o = bitsOf (8 - q) o ++ replicate q false := by
      rw [← bitsOf_of_lt hlast, show 8 - q + q = 8 by omega]
    have hall := h.bits
    rw [hudtab, reverse_cons, flatMap_append, hq, flatMap_singleton, hpad, ← append_assoc] at hall
    exact append_cancel_right hall

theorem fill_lt {q o : Nat} (hq : q ≤ 8) (ho : o < 256) : (ch % 2 ^ q) <<< (8 - q) ||| o < 256 := by
  refine Nat.or_lt_two_pow (n := 8) ?_ ho
  rw [Nat.shiftLeft_eq]
  calc ch % 2 ^ q * 2 ^ (8 - q) < 2 ^ q * 2 ^ (8 - q) :=
        Nat.mul_lt_mul_of_pos_right (Nat.mod_lt _ (Nat.two_pow_pos q)) (Nat.two_pow_pos _)
    _ = 2 ^ 8 := by rw [← Nat.pow_add, show q + (8 - q) = 8 by omega]

theorem spread_packed (h : Packed xs p) {q : Nat} (hq : xs.length % 8 = q) (hpos : 1 ≤ q)
    (hmax : q ≤ 6) (hch : ch < 128) {low left high right : Nat} (hlow : ch &&& low = ch % 2 ^ q)
    (hleft : left = 8 - q) (hhigh : (ch &&& high) >>> right = ch / 2 ^ q) :
    Packed (xs ++ [ch]) ⟨q + 2, spread low left high right ch p.udtab⟩ := by
  obtain ⟨o, done, hudtab, hlast, hbits⟩ := h.exists_last hq hpos
  have hlen : (xs ++ [ch]).length % 8 = q + 1 := by
    rw [length_append, length_singleton]
    omega
  have hnext : ch / 2 ^ q < 2 ^ (8 - (q + 1)) := by
    rw [Nat.div_lt_iff_lt_mul (Nat.two_pow_pos q), ← Nat.pow_add,
      show 8 - (q + 1) + q = 7 by omega]
    exact hch
  have ho : o < 256 := h.octets o (by rw [hudtab]; exact mem_cons_self)
  rw [hudtab, spread, hlow, hhigh, hleft]
  refine ⟨by rw [hlen], ?_, ?_, ?_⟩
  · rw [hlen, reverse_cons, reverse_cons, flatMap_append, flatMap_append,
      flatMap_singleton, flatMap_singleton, append_assoc,
      spread_bits (by omega) hlast hch, flatMap_append, flatMap_singleton, ← hbits]
    simp only [append_assoc]
  · intro o' ho'
    cases ho'
    rw [hlen]
    exact hnext
  · intro o' ho'
    rcases mem_cons.mp ho' with rfl | ho'
    · exact hnext.trans_le (Nat.pow_le_pow_right (by decide) (by omega : 8 - (q + 1) ≤ 8))
    · rcases mem_cons.mp ho' with rfl | ho'
      · exact fill_lt (by omega) ho
      · exact h.octets o' (by rw [hudtab]; exact mem_cons_of_mem _ ho')

theorem fillUp_packed (h : Packed xs p) (hq : xs.length % 8 = 7) (hch : ch < 128) :
    Packed (xs ++ [ch]) ⟨1, fillUp ch p.udtab⟩ := by
  obtain ⟨o, done, hudtab, hlast, hbits⟩ := h.exists_last hq (by decide)
  have hlen : (xs ++ [ch]).length % 8 = 0 := by
    rw [length_append, length_singleton]
    omega
  have hmod : ch % 2 ^ 7 = ch := Nat.mod_eq_of_lt hch
  have ho : o < 256 := h.octets o (by rw [hudtab]; exact mem_cons_self)
  have hlt : ch <<< 1 ||| o < 256 := by
    have hfill : (ch % 2 ^ 7) <<< (8 - 7) ||| o < 256 := fill_lt (by decide) ho
    rw [hmod] at hfill
    exact hfill
  have hspread : bitsOf 8 (ch <<< 1 ||| o) = bitsOf 1 o ++ bitsOf 7 ch := by
    have hall := spread_bits (by decide) hlast hch
    rw [hmod, Nat.div_eq_of_lt (show ch < 2 ^ 7 from hch)] at hall
    exact append_cancel_right hall
  rw [hudtab, fillUp]
  refine ⟨by rw [hlen], ?_, ?_, ?_⟩
  · rw [hlen, reverse_cons, flatMap_append, flatMap_singleton, hspread, flatMap_append, ← hbits]
    simp
  · intro o' ho'
    cases ho'
    rw [hlen]
    exact hlt
  · intro o' ho'
    rcases mem_cons.mp ho' with rfl | ho'
    · exact hlt
    · exact h.octets o' (by rw [hudtab]; exact mem_cons_of_mem _ ho')

theorem first_packed (h : Packed xs p) (hq : xs.length % 8 = 0) (hch : ch < 128) :
    Packed (xs ++ [ch]) ⟨2, ch :: p.udtab⟩ := by
  have hlen : (xs ++ [ch]).length % 8 = 1 := by
    rw [length_append, length_singleton]
    omega
  refine ⟨by rw [hlen], ?_, ?_, ?_⟩
  · have hall := h.bits
    rw [hq, replicate_zero, append_nil] at hall
    rw [hlen, reverse_cons, flatMap_append, flatMap_append, append_assoc]
    congr 1
    exact bitsOf_of_lt (v := 7) hch 1
  · intro o' ho'
    cases ho'
    rw [hlen]
    exact hch
  · intro o' ho'
    rcases mem_cons.mp ho' with rfl | ho'
    · omega
    · exact h.octets o' ho'

theorem mask_spec : ∀ ch < 128,
    (ch &&& 1 = ch % 2 ^ 1 ∧ (ch &&& 126) >>> 1 = ch / 2 ^ 1) ∧
    (ch &&& 3 = ch % 2 ^ 2 ∧ (ch &&& 124) >>> 2 = ch / 2 ^ 2) ∧
    (ch &&& 7 = ch % 2 ^ 3 ∧ (ch &&& 120) >>> 3 = ch / 2 ^ 3) ∧
    (ch &&& 15 = ch % 2 ^ 4 ∧ (ch &&& 112) >>> 4 = ch / 2 ^ 4) ∧
    (ch &&& 31 = ch % 2 ^ 5 ∧ (ch &&& 96) >>> 5 = ch / 2 ^ 5) ∧
    (ch &&& 63 = ch % 2 ^ 6 ∧ (ch &&& 64) >>> 6 = ch / 2 ^ 6) := by
  decide +kernel

/-- **One round of `pack` appends one septet.** -/
theorem add_packed (h : Packed xs p) (hch : ch < 128) : Packed (xs ++ [ch]) (p.add ch) := by
  obtain ⟨⟨l1, h1⟩, ⟨l2, h2⟩, ⟨l3, h3⟩, ⟨l4, h4⟩, ⟨l5, h5⟩, ⟨l6, h6⟩⟩ := mask_spec ch hch
  have hlt : xs.length % 8 < 8 := Nat.mod_lt _ (by decide)
  have hii := h.ii
  generalize hq : xs.length % 8 = q at hlt hii
  unfold Packing.add
  rw [hii]
  match q, hlt with
  | 0, _ => exact first_packed h hq hch
  | 1, _ => exact spread_packed h hq (by decide) (by decide) hch l1 rfl h1
  | 2, _ => exact spread_packed h hq (by decide) (by decide) hch l2 rfl h2
  | 3, _ => exact spread_packed h hq (by decide) (by decide) hch l3 rfl h3
  | 4, _ => exact spread_packed h hq (by decide) (by decide) hch l4 rfl h4
  | 5, _ => exact spread_packed h hq (by decide) (by decide) hch l5 rfl h5
  | 6, _ => exact spread_packed h hq (by decide) (by decide) hch l6 rfl h6
  | 7, _ => exact fillUp_packed h hq hch

theorem foldl_packed (ys : List Nat) : ∀ {xs : List Nat} {p : Packing}, Packed xs p →
    (∀ ch ∈ ys, ch < 128) → Packed (xs ++ ys) (ys.foldl Packing.add p) := by
  induction ys with
  | nil =>
    intro xs p h _
    rw [append_nil]
    exact h
  | cons ch ys ih =>
    intro xs p h hys
    have hnext := ih (add_packed h (hys ch mem_cons_self)) fun c hc =>
      hys c (mem_cons_of_mem _ hc)
    rw [append_assoc] at hnext
    exact hnext

/-! ### The digits of the octets -/

theorem formatX_spec : ∀ n < 256, (formatX 2 n).length = 2 ∧ tonumber16 (formatX 2 n) = some n ∧
    octet2binCheck (formatX 2 n) = some n ∧ Hex (formatX 2 n) := by
  decide +kernel

theorem length_flatMap_formatX (h : ∀ o ∈ os, o < 256) :
    (os.flatMap (formatX 2)).length = 2 * os.length := by
  induction os with
  | nil => rfl
  | cons o os ih =>
    have ho := (formatX_spec o (h o mem_cons_self)).1
    rw [flatMap_cons, length_append, ih fun x hx => h x (mem_cons_of_mem _ hx),
      length_cons]
    omega

theorem hex_flatMap_formatX (h : ∀ o ∈ os, o < 256) : Hex (os.flatMap (formatX 2)) := by
  intro c hc
  obtain ⟨o, ho, hco⟩ := mem_flatMap.mp hc
  exact (formatX_spec o (h o ho)).2.2.2 c hco

theorem digitPairs_append {s : List Char} (hs : s.length = 2) (t : List Char) :
    digitPairs (s ++ t) = s :: digitPairs t := by
  match s, hs with
  | [c₁, c₂], _ => rfl

theorem mapM_digitPairs (h : ∀ x ∈ xs, x < 256) :
    (digitPairs (xs.flatMap (formatX 2))).mapM tonumber16 = some xs := by
  induction xs with
  | nil => rfl
  | cons x xs ih =>
    obtain ⟨hlen, hvalue, -⟩ := formatX_spec x (h x mem_cons_self)
    rw [flatMap_cons, digitPairs_append hlen, mapM_cons, hvalue,
      ih fun y hy => h y (mem_cons_of_mem _ hy)]
    rfl

structure Carries (os xs : List Nat) : Prop where
  octet : ∀ o ∈ os, o < 256
  bits : ∃ k, os.flatMap (bitsOf 8) = xs.flatMap (bitsOf 7) ++ replicate k false

/-- **The result of `pack`.** -/
theorem pack_spec (h : ∀ x ∈ xs, x < 128) (hlen : xs.length < 256) :
    ∃ os : List Nat, pack (formatX 2 xs.length) (xs.flatMap (formatX 2))
        = .ok (os.flatMap (formatX 2)) ∧
      os.length = (xs.length * 7 + 7) / 8 ∧ Carries os xs := by
  have hstart : Packed [] ⟨1, []⟩ := ⟨rfl, rfl, by simp, by simp⟩
  have hpacked := foldl_packed xs hstart h
  rw [nil_append] at hpacked
  generalize hp : xs.foldl Packing.add ⟨1, []⟩ = p at hpacked
  have hcount : p.udtab.reverse.length = (xs.length * 7 + 7) / 8 := by
    have hbits := congrArg length hpacked.bits
    rw [length_append, length_flatMap_bitsOf, length_flatMap_bitsOf, length_replicate]
      at hbits
    omega
  refine ⟨p.udtab.reverse, ?_, hcount, fun o ho => hpacked.octets o (mem_reverse.mp ho),
    _, hpacked.bits⟩
  unfold pack
  rw [(formatX_spec _ hlen).2.1, mapM_digitPairs fun x hx => (h x hx).trans (by decide)]
  dsimp only
  rw [hp, if_neg (by omega), take_of_length_le (by omega), drop_of_length_le (by omega)]
  simp

/-! ### Unpacking -/

theorem octetAt_append {s : List Char} (hs : s.length = 2) (t : List Char) (i : Nat) :
    octetAt (s ++ t) (i + 1) = octetAt t i := by
  rw [octetAt, octetAt, show 2 * (i + 1) = s.length + 2 * i by omega,
    drop_length_add_append]

theorem octetAt_flatMap (h : ∀ o ∈ os, o < 256) (rest : List Char) :
    ∀ i < os.length, octetAt (os.flatMap (formatX 2) ++ rest) i = os[i]? := by
  induction os with
  | nil =>
    intro i hi
    cases hi
  | cons o os ih =>
    intro i hi
    obtain ⟨hlen, -, hvalue, -⟩ := formatX_spec o (h o mem_cons_self)
    rw [flatMap_cons, append_assoc]
    cases i with
    | zero =>
      rw [octetAt, drop_zero, octet2binCheck_append (by omega), hvalue]
      rfl
    | succ i =>
      rw [octetAt_append hlen]
      exact ih (fun x hx => h x (mem_cons_of_mem _ hx)) i (Nat.lt_of_succ_lt_succ hi)

theorem mapM_eq_some_map {α β : Type} {f : α → Option β} {g : α → β} {xs : List α}
    (h : ∀ x ∈ xs, f x = some (g x)) : xs.mapM f = some (xs.map g) := by
  induction xs with
  | nil => rfl
  | cons x xs ih =>
    rw [mapM_cons, h x mem_cons_self, ih fun y hy => h y (mem_cons_of_mem _ hy)]
    rfl

section Unpack

variable {xs os : List Nat} (hos : Carries os xs) (rest : List Char)

include hos

theorem bitAt_octets {p : Nat} (hp : p < 7 * xs.length) :
    bitAt (os.flatMap (formatX 2) ++ rest) p = (xs[p / 7]?).map fun x => x.testBit (p % 7) := by
  obtain ⟨hos, k, hbits⟩ := hos
  have hlen := congrArg length hbits
  rw [length_append, length_flatMap_bitsOf, length_flatMap_bitsOf] at hlen
  rw [bitAt, octetAt_flatMap hos rest _ (by omega), ← getElem?_flatMap_bitsOf (by decide), hbits,
    getElem?_append_left (by rw [length_flatMap_bitsOf]; exact hp),
    getElem?_flatMap_bitsOf (by decide)]

variable (hxs : ∀ x ∈ xs, x < 128)

include hxs

theorem septetAt_octets {i : Nat} (hi : i < xs.length) :
    septetAt (os.flatMap (formatX 2) ++ rest) i = some xs[i] := by
  have hmap : (range' (7 * i) 7).mapM (bitAt (os.flatMap (formatX 2) ++ rest))
      = some ((range' (7 * i) 7).map fun p => xs[i].testBit (p % 7)) := by
    refine mapM_eq_some_map fun p hp => ?_
    have hrange := mem_range'_1.mp hp
    have hdiv : p / 7 = i := by omega
    rw [bitAt_octets hos rest (by omega), hdiv, getElem?_eq_getElem hi]
    rfl
  have hseptet : (range' (7 * i) 7).map (fun p => xs[i].testBit (p % 7)) = bitsOf 7 xs[i] := by
    rw [range'_eq_map_range, map_map]
    refine map_congr_left fun j hj => ?_
    have hlt := mem_range.mp hj
    have hmod : (7 * i + j) % 7 = j := by omega
    simp only [Function.comp_apply, hmod]
  rw [septetAt, hmap, hseptet, Option.map_some, ofBits_bitsOf (hxs _ (getElem_mem hi))]

theorem unpackFrom_octets (n : Nat) : ∀ i, i + n = xs.length →
      unpackFrom (os.flatMap (formatX 2) ++ rest) i n = xs.drop i := by
  induction n with
  | zero =>
    intro i hi
    rw [unpackFrom, drop_of_length_le (by omega)]
  | succ n ih =>
    intro i hi
    rw [unpackFrom, septetAt_octets hos rest hxs (show i < xs.length by omega)]
    dsimp only
    rw [ih (i + 1) (by omega), getElem_cons_drop]

/-- **The bit reader gets the packed septets back.** -/
theorem unpack_octets : unpack (os.flatMap (formatX 2) ++ rest) xs.length = xs :=
  unpackFrom_octets hos rest hxs xs.length 0 (by omega)

end Unpack

/-! ### Septets written as pairs of digits, and back -/

/-- The two loops of `pdu2text` without what is done with a septet: the septets in the order
    in which they go to `gsm2byte`. -/
def bitLoop (pdu : List Char) : Nat → Nat → BitReader → Option (List Nat)
  | 0, _, _ => some []
  | n + 1, charcounter, reader =>
      match septetLoop pdu 7 (charcounter * 7) 0 reader with
      | none => none
      | some (c, reader) => (bitLoop pdu n (charcounter + 1) reader).map (c :: ·)

theorem bitLoop_eq (pdu : List Char) (octets n : Nat) : ∀ {k : Nat} {reader : BitReader},
    Aligned (pdu.drop 2) octets (7 * k) reader → 7 * (k + n) ≤ 8 * octets →
      (unpackFrom (pdu.drop 2) k n).length = n →
        bitLoop pdu n k reader = some (unpackFrom (pdu.drop 2) k n) := by
  induction n with
  | zero =>
    intro k reader _ _ _
    rfl
  | succ n ih =>
    intro k reader hal hle hlen
    have hseptet := septetLoop_eq pdu octets 7 hal (by omega) (show 0 < 128 by decide) (le_refl 7)
    rw [unpackFrom, septetAt] at hlen ⊢
    rw [bitLoop, Nat.mul_comm k 7]
    cases hbs : (range' (7 * k) 7).mapM (bitAt (pdu.drop 2)) with
    | none => simp [hbs] at hlen
    | some bs =>
      rw [hbs] at hseptet
      obtain ⟨reader', hal', hloop⟩ := hseptet
      simp only [hbs, Option.map_some, length_cons, Nat.add_right_cancel_iff] at hlen
      have hal'' : Aligned (pdu.drop 2) octets (7 * (k + 1)) reader' := hal'
      have hrest := ih hal'' (by omega) hlen
      simp [hloop, hrest]

theorem pack_congr {udl txt : List Char} (h : ∀ x ∈ xs, x < 256) (hlen : xs.length < 256)
    (hudl : tonumber16 udl = some xs.length) (htxt : (digitPairs txt).mapM tonumber16 = some xs) :
    pack udl txt = pack (formatX 2 xs.length) (xs.flatMap (formatX 2)) := by
  unfold pack
  rw [hudl, htxt, (formatX_spec _ hlen).2.1, mapM_digitPairs h]

/-- **Septet packing and unpacking are inverse.** -/
theorem septets_pack_unpack {xs : List Nat} (hxs : ∀ x ∈ xs, x < 128)
    (hlen : 1 ≤ xs.length ∧ xs.length ≤ 160) {udl txt : List Char}
    (hudl : tonumber16 udl = some xs.length)
    (htxt : (digitPairs txt).mapM tonumber16 = some xs) :
    ∃ octets : List Nat, pack udl txt = .ok (octets.flatMap (formatX 2)) ∧
      octets.length = (7 * xs.length + 7) / 8 ∧ (∀ o ∈ octets, o < 256) ∧
      let pdu := formatX 2 xs.length ++ octets.flatMap (formatX 2)
      octet2binCheck pdu = some xs.length ∧
      bitLoop pdu xs.length 0 ⟨(xs.length * 7 + 7) / 8, 0, 0⟩ = some xs ∧
      ∀ skip w, textLoop pdu skip xs.length 0 ⟨(xs.length * 7 + 7) / 8, 0, 0⟩ w
        = (true, w.write skip 0 xs) := by
  have hsmall : xs.length < 256 := by omega
  obtain ⟨octets, hpack, hcount, hos⟩ := pack_spec hxs hsmall
  obtain ⟨hwidth, -, hvalue, -⟩ := formatX_spec _ hsmall
  have hdrop : (formatX 2 xs.length ++ octets.flatMap (formatX 2)).drop 2
      = octets.flatMap (formatX 2) := drop_left' hwidth
  have hunpack : unpack (octets.flatMap (formatX 2)) xs.length = xs := by
    have h := unpack_octets hos [] hxs
    rwa [append_nil] at h
  have hloop : bitLoop (formatX 2 xs.length ++ octets.flatMap (formatX 2)) xs.length 0
      ⟨(xs.length * 7 + 7) / 8, 0, 0⟩ = some xs := by
    have h := bitLoop_eq (formatX 2 xs.length ++ octets.flatMap (formatX 2))
      ((xs.length * 7 + 7) / 8) xs.length (aligned_zero _ _)
      (show 7 * (0 + xs.length) ≤ 8 * ((xs.length * 7 + 7) / 8) by omega)
      (by rw [hdrop, ← unpack, hunpack])
    rwa [hdrop, ← unpack, hunpack] at h
  refine ⟨octets, ?_, by rw [hcount, Nat.mul_comm], hos.octet, ?_, hloop, ?_⟩
  · rw [pack_congr (fun x hx => (hxs x hx).trans (by decide)) hsmall hudl htxt, hpack]
  · rw [octet2binCheck_append (by omega), hvalue]
  · intro skip w
    rw [textLoop_start, hdrop, hunpack, decide_eq_true rfl]

/-- Nine septets, in lower-case digits. -/
theorem septets_pack_unpack_nine :
    ∃ octets : List Nat, pack "09".toList "48656c6c6f2057307f".toList
        = .ok (octets.flatMap (formatX 2)) ∧ octets.length = 8 ∧
      bitLoop ("09".toList ++ octets.flatMap (formatX 2)) 9 0 ⟨8, 0, 0⟩
        = some [0x48, 0x65, 0x6c, 0x6c, 0x6f, 0x20, 0x57, 0x30, 0x7f] := by
  obtain ⟨octets, hpack, hcount, -, -, hloop, -⟩ := @septets_pack_unpack
    [0x48, 0x65, 0x6c, 0x6c, 0x6f, 0x20, 0x57, 0x30, 0x7f] (by decide) (by decide)
    "09".toList "48656c6c6f2057307f".toList (by decide +kernel) (by decide +kernel)
  exact ⟨octets, hpack, hcount, hloop⟩

end Rooter.SmsEncode
