import Rooter.SmsUnicode

/-!
# Messages that are sent: `sendsms.lua`

`sendsms.lua` gets a number and a text that `chktxt` has encoded.  It builds a SUBMIT PDU with the
number in swapped pairs of digits and hands it to the modem with its length, which does not count
the service centre.  The address field has the form that `parseDeliver` reads, and the length is
right for every text that `chktxt` lets pass.
-/

namespace Rooter.SmsEncode

open List Numeral LuaString SmsRead

/-! ### The script -/

/-- `repeat ... until j > k`: two digits in each round. -/
def swapDigits : List Char → List Char
  | c₁ :: c₂ :: rest => c₂ :: c₁ :: swapDigits rest
  | [c] => [c]
  | [] => []

def splitSign (addr : List Char) : List Char × List Char :=
  match addr with
  | '+' :: addr => (addr, "91".toList)
  | '-' :: addr => (addr, "81".toList)
  | addr => (addr, "81".toList)

/-- The address field `da`: the number of digits, the type and the digits. -/
def addressField (addr : List Char) : List Char :=
  let (addr, da) := splitSign addr
  let da := formatX 2 addr.length ++ da
  let addr := if 0 < addr.length % 2 then addr ++ ['F'] else addr
  da ++ swapDigits addr

def format03d (n : Nat) : List Char := (decimal n).leftpad 3 '0'

def userOctets (udl dcs txt : List Char) : Except LuaError (List Char) :=
  if dcs = "00".toList then pack udl txt else .ok txt

/-- The script with the arguments `addr`, `dcs` and `txt`: the length and the PDU that
    `sendsms.sh` is called with. -/
def sendsms (addr dcs txt : List Char) : Except LuaError Output := do
  let udl := formatX 2 (txt.length / 2)
  let da := addressField addr
  let ud ← userOctets udl dcs txt
  let pdu := "001100".toList ++ da ++ "00".toList ++ dcs ++ "AD".toList ++ udl ++ ud
  pure ⟨format03d (pdu.length / 2 - 1), pdu⟩

/-! ### The address -/

structure Destination where
  plus : Bool
  digits : List Char
  isdigit : digits.all isdigit = true
  pos : 1 ≤ digits.length
  le_max : digits.length ≤ maxNumber

namespace Destination

def text (dest : Destination) : List Char :=
  if dest.plus then '+' :: dest.digits else dest.digits

def addrType (dest : Destination) : Nat := if dest.plus then 0x91 else 0x81

def padded (dest : Destination) : List Char :=
  if 0 < dest.digits.length % 2 then dest.digits ++ ['F'] else dest.digits

def address (dest : Destination) (rest : List Char) : Address :=
  ⟨dest.digits.length, dest.addrType, swapDigits dest.padded ++ rest⟩

end Destination

theorem length_swapDigits : ∀ s : List Char, (swapDigits s).length = s.length
  | [] => rfl
  | [_] => rfl
  | c₁ :: c₂ :: rest => by
    rw [swapDigits, length_cons, length_cons, length_swapDigits rest]
    rfl

/-- **Swapping twice**: the reader may take one character too many. -/
theorem swapPairs_swapDigits : ∀ s t : List Char, s.length % 2 = 0 → t.length ≤ 1 →
    swapPairs (swapDigits s ++ t) = s
  | [], [], _, _ => rfl
  | [], [_], _, _ => rfl
  | [], _ :: _ :: _, _, h => absurd h (by simp)
  | [_], _, h, _ => absurd h (by simp)
  | c₁ :: c₂ :: rest, t, hs, ht => by
    have hrest : rest.length % 2 = 0 := by
      rw [length_cons, length_cons] at hs
      omega
    rw [swapDigits, cons_append, cons_append, swapPairs, swapPairs_swapDigits rest t hrest ht]

section Address

variable (dest : Destination)

theorem length_padded : dest.padded.length = dest.digits.length + dest.digits.length % 2 := by
  unfold Destination.padded
  split
  · rw [length_append, length_singleton]
    omega
  · omega

theorem splitSign_text : splitSign dest.text
    = (dest.digits, if dest.plus then "91".toList else "81".toList) := by
  have hdigits := all_eq_true.mp dest.isdigit
  unfold Destination.text
  cases dest.plus with
  | true => rfl
  | false =>
    obtain ⟨c, cs, hcons⟩ := exists_cons_of_length_pos dest.pos
    have hc := hdigits c (by rw [hcons]; exact mem_cons_self)
    have hplus : c ≠ '+' := by
      rintro rfl
      exact absurd hc (by decide)
    have hminus : c ≠ '-' := by
      rintro rfl
      exact absurd hc (by decide)
    simp only [hcons]
    unfold splitSign
    split
    · next heq => exact absurd (cons.inj heq).1 hplus
    · next heq => exact absurd (cons.inj heq).1 hminus
    · rfl

theorem addressField_text : addressField dest.text
    = formatX 2 dest.digits.length ++ (formatX 2 dest.addrType ++ swapDigits dest.padded) := by
  have htype : (if dest.plus then "91".toList else "81".toList) = formatX 2 dest.addrType := by
    unfold Destination.addrType
    cases dest.plus <;> decide
  unfold addressField
  rw [splitSign_text]
  dsimp only
  rw [htype, append_assoc]
  rfl

theorem width_address (rest : List Char) :
    (dest.address rest).width = (swapDigits dest.padded).length :=
  ((length_swapDigits _).trans (length_padded dest)).symm

theorem stripped_padded :
    (if dest.padded[dest.padded.length - 1]? = some 'F' then
      dest.padded.take (dest.padded.length - 1) else dest.padded) = dest.digits := by
  have hdigits := all_eq_true.mp dest.isdigit
  unfold Destination.padded
  split
  · rw [length_append, length_singleton, Nat.add_sub_cancel,
      getElem?_concat_length, if_pos rfl, take_left]
  · have hlast : dest.digits[dest.digits.length - 1]? ≠ some 'F' := by
      intro h
      exact absurd (hdigits 'F' (mem_of_getElem? h)) (by decide)
    rw [if_neg hlast]

theorem number_address (rest : List Char) :
    (dest.address rest).number true dest.padded = dest.text := by
  have hwidth : (dest.address rest).width = dest.padded.length := (length_padded dest).symm
  unfold Address.number
  rw [hwidth]
  rw [stripped_padded]
  unfold Destination.address Destination.addrType Destination.text
  cases dest.plus <;> simp

theorem readSender_address (rest : List Char) (d : Decoder) :
    readSender (dest.address rest) d = .ok (some rest, { d with mNumber := some dest.text }) := by
  have hnumber : ¬ (dest.address rest).Named := by
    change ¬ dest.addrType &&& 112 = 80
    unfold Destination.addrType
    cases dest.plus <;> decide
  have hwidth := width_address dest rest
  have hpos := dest.pos
  have hlen := length_padded dest
  have htake : (dest.address rest).ptr.take ((dest.address rest).width + 1)
      = swapDigits dest.padded ++ rest.take 1 := by
    rw [hwidth]
    exact take_length_add_append 1
  have hpairs : ¬ (swapDigits dest.padded ++ rest.take 1).length < 2 := by
    rw [length_append, length_swapDigits]
    omega
  have hswap : swapPairs (swapDigits dest.padded ++ rest.take 1) = dest.padded :=
    swapPairs_swapDigits _ _ (by omega) (by rw [length_take]; omega)
  have hbehind : (dest.address rest).behind = rest := by
    rw [Address.behind, hwidth]
    exact drop_left
  rw [readSender, readAddress_number hnumber, htake, swapchars, if_neg hpairs, hswap]
  dsimp only
  rw [number_address, hbehind]
  rfl

/-- **The number is read back** by the address decoder of `parseDeliver`. -/
theorem senderAddress_field (rest : List Char) (d : Decoder) :
    octet2binCheck (addressField dest.text ++ rest) = some dest.digits.length ∧
    senderAddress dest.digits.length (addressField dest.text ++ rest) d
      = .ok (some rest, { d with mNumber := some dest.text }) := by
  have hpos := dest.pos
  have hmax := dest.le_max
  rw [maxNumber] at hmax
  obtain ⟨hlen, -, hvalue, -⟩ := formatX_spec dest.digits.length (by omega)
  have htypeLt : dest.addrType < 256 ∧ ¬ dest.addrType < 0x80 := by
    unfold Destination.addrType
    cases dest.plus <;> decide
  obtain ⟨hlen', -, hvalue', -⟩ := formatX_spec dest.addrType htypeLt.1
  rw [addressField_text, append_assoc, append_assoc]
  refine ⟨by rw [octet2binCheck_append (by omega), hvalue], ?_⟩
  have hbehind : subFrom (formatX 2 dest.digits.length ++ (formatX 2 dest.addrType ++
      (swapDigits dest.padded ++ rest))) 3
      = formatX 2 dest.addrType ++ (swapDigits dest.padded ++ rest) := drop_left' hlen
  have hptr : subFrom (formatX 2 dest.addrType ++ (swapDigits dest.padded ++ rest)) 3
      = swapDigits dest.padded ++ rest := drop_left' hlen'
  unfold senderAddress
  rw [if_neg (by omega), hbehind, octet2binCheck_append (by omega), hvalue']
  dsimp only
  rw [if_neg htypeLt.2, hptr]
  exact readSender_address dest rest d

end Address

/-! ### Octets -/

def Octets (bound : Nat) (s : List Char) : Prop :=
  ∃ xs : List Nat, (∀ x ∈ xs, x < bound) ∧ s = xs.flatMap (formatX 2)

variable {bound : Nat}

theorem Octets.nil : Octets bound [] := ⟨[], by simp, rfl⟩

theorem Octets.append {s t : List Char} (hs : Octets bound s) (ht : Octets bound t) :
    Octets bound (s ++ t) := by
  obtain ⟨xs, hxs, rfl⟩ := hs
  obtain ⟨ys, hys, rfl⟩ := ht
  refine ⟨xs ++ ys, fun x hx => ?_, flatMap_append.symm⟩
  rcases mem_append.mp hx with hx | hx
  · exact hxs x hx
  · exact hys x hx

theorem octets_formatX {x : Nat} (h : x < bound) : Octets bound (formatX 2 x) :=
  ⟨[x], by simpa using h, by simp⟩

theorem octets_formatX_four {w : Nat} (hw : w < 0x10000) : Octets 256 (formatX 4 w) := by
  rw [formatX_four hw]
  exact (octets_formatX (by omega)).append (octets_formatX (by omega))

theorem mem_of_isUpperHex {c : Char} (h : isUpperHex c = true) : c ∈ "0123456789ABCDEF".toList := by
  simp only [isUpperHex, Bool.or_eq_true, Bool.and_eq_true, decide_eq_true_eq] at h
  have hall : ∀ n < 71, 48 ≤ n ∧ n ≤ 57 ∨ 65 ≤ n ∧ n ≤ 70 →
      Char.ofNat n ∈ "0123456789ABCDEF".toList := by decide
  have hmem := hall c.toNat (by omega) h
  rwa [Char.ofNat_toNat] at hmem

theorem octets_pair {c₁ c₂ : Char} (h₁ : isUpperHex c₁ = true) (h₂ : isUpperHex c₂ = true) :
    Octets 256 [c₁, c₂] := by
  have hall : "0123456789ABCDEF".toList.all (fun c₁ => "0123456789ABCDEF".toList.all fun c₂ =>
      decide (∃ x ∈ tonumber16 [c₁, c₂], x < 256 ∧ [c₁, c₂] = formatX 2 x)) = true := by
    decide +kernel
  have hpair := all_eq_true.mp (all_eq_true.mp hall c₁ (mem_of_isUpperHex h₁)) c₂
    (mem_of_isUpperHex h₂)
  obtain ⟨x, -, hx, heq⟩ := of_decide_eq_true hpair
  rw [heq]
  exact octets_formatX hx

theorem octets_swapDigits : ∀ s : List Char, Hex s → s.length % 2 = 0 →
    Octets 256 (swapDigits s)
  | [], _, _ => Octets.nil
  | [_], _, h => absurd h (by simp)
  | c₁ :: c₂ :: rest, hhex, hlen => by
    have hrest : Octets 256 (swapDigits rest) := by
      refine octets_swapDigits rest (hhex.drop 2) ?_
      rw [length_cons, length_cons] at hlen
      omega
    have hpair := octets_pair (hhex c₂ (by simp)) (hhex c₁ (by simp))
    exact hpair.append hrest

theorem octets_addressField (dest : Destination) : Octets 256 (addressField dest.text) := by
  have hmax := dest.le_max
  rw [maxNumber] at hmax
  have htype : dest.addrType < 256 := by
    unfold Destination.addrType
    cases dest.plus <;> decide
  have hdigits : Hex dest.digits := by
    intro c hc
    have hdigit := all_eq_true.mp dest.isdigit c hc
    simp only [isdigit, isUpperHex, Bool.or_eq_true]
      at hdigit ⊢
    exact .inl hdigit
  have hpadded : Hex dest.padded := by
    unfold Destination.padded
    split
    · exact hdigits.append (by decide)
    · exact hdigits
  have hlen := length_padded dest
  rw [addressField_text]
  exact (octets_formatX (by omega)).append
    ((octets_formatX htype).append (octets_swapDigits _ hpadded (by omega)))

/-! ### The user data -/

/-- The two encodings consist of whole octets, and the seven-bit one of septets. -/
structure Whole (s : Scan) : Prop where
  unicode : Octets 256 s.unicode
  septets : Octets 128 s.g7hex

theorem octets_g7t {ch : Nat} {res : List Char} (h : g7t ch = some res) : Octets 128 res := by
  have hall : g7Keys.all (fun ch => decide (∀ res ∈ g7t ch,
      ((digitPairs res).filterMap tonumber16).all (· < 128) = true ∧
        res = ((digitPairs res).filterMap tonumber16).flatMap (formatX 2))) = true := by
    decide +kernel
  have hkey := of_decide_eq_true (all_eq_true.mp hall ch (mem_g7Keys (by rw [h]; rfl))) res h
  refine ⟨_, fun x hx => ?_, hkey.2⟩
  exact of_decide_eq_true (all_eq_true.mp hkey.1 x hx)

section Whole

variable {s : Scan} (h : Whole s)

include h

theorem Whole.add {w : Nat} (hw : w < 0x10000) {res : List Char} (hres : Octets 128 res)
    (ok : Bool) : Whole ⟨s.unicode ++ formatX 4 w, s.g7hex ++ res, ok⟩ :=
  ⟨h.unicode.append (octets_formatX_four hw), h.septets.append hres⟩

theorem Whole.wordOnly {w : Nat} (hw : w < 0x10000) :
    Whole ⟨s.unicode ++ formatX 4 w, s.g7hex, false⟩ :=
  ⟨h.unicode.append (octets_formatX_four hw), h.septets⟩

theorem Whole.wide {ch : Nat} (hch : ch < 0x10000) : Whole (s.wide ch) := by
  unfold Scan.wide
  split
  · exact h.wordOnly hch
  · next res hres => exact h.add hch (octets_g7t hres) s.g7isok

theorem Whole.narrow {ch : Nat} (hch : ch ≤ 0x7F) : Whole (s.narrow ch) := by
  have hword : ch < 0x10000 := by omega
  unfold Scan.narrow
  cases hres : g7t ch with
  | some res => exact h.add hword (octets_g7t hres) s.g7isok
  | none => exact h.add hword (octets_formatX (by omega)) s.g7isok

theorem Whole.surrogates (ch : Nat) : Whole (s.surrogates ch) := by
  unfold Scan.surrogates
  generalize (ch + 0x100000 - 0x10000) % 0x100000 = v
  have hfirst : 0xD800 ||| (v &&& 0xFFC00) >>> 10 < 0x10000 := by
    refine Nat.or_lt_two_pow (n := 16) (by decide) ?_
    have hmask : v &&& 0xFFC00 < 2 ^ 20 := Nat.and_lt_two_pow _ (by decide)
    omega
  have hsecond : 0xDC00 ||| v &&& 0x3FF < 0x10000 :=
    Nat.or_lt_two_pow (n := 16) (by decide) (Nat.and_lt_two_pow _ (by decide))
  exact (h.wordOnly hfirst).wordOnly hsecond

end Whole

variable {txt : List Char}

theorem sixBits_shiftLeft_lt (b k : Nat) {n : Nat} (hn : 6 + k ≤ n) :
    (b &&& 0x3F) <<< k < 2 ^ n := by
  have hbits : b &&& 0x3F < 2 ^ 6 := Nat.and_lt_two_pow _ (by decide)
  rw [Nat.shiftLeft_eq]
  calc (b &&& 0x3F) * 2 ^ k < 2 ^ 6 * 2 ^ k := Nat.mul_lt_mul_of_pos_right hbits (Nat.two_pow_pos k)
    _ = 2 ^ (6 + k) := (Nat.pow_add 2 6 k).symm
    _ ≤ 2 ^ n := Nat.pow_le_pow_right (by decide) hn

/-- **The loop of `chktxt` keeps whole octets**, for any string of octets. -/
theorem chktxtLoop_whole (bytes : List Char) (s : Scan) :
    ∀ s' : Scan, chktxtLoop bytes s = .ok s' → Whole s → Whole s' := by
  fun_induction chktxtLoop bytes s with
  | case1 s =>
    intro s' h hs
    cases h
    exact hs
  | case2 c s ch hch c₁ c₂ c₃ rest ih => exact fun s' h hs => ih s' h (hs.surrogates _)
  | case4 c s ch hlt hch c₁ c₂ rest ih =>
    refine fun s' h hs => ih s' h (hs.wide ?_)
    have htop : (ch &&& 0xF) <<< 12 < 2 ^ 16 := by
      have hbits : ch &&& 0xF < 2 ^ 4 := Nat.and_lt_two_pow _ (by decide)
      omega
    exact Nat.or_lt_two_pow (sixBits_shiftLeft_lt _ 0 (by decide))
      (Nat.or_lt_two_pow (sixBits_shiftLeft_lt _ 6 (by decide)) htop)
  | case6 c s ch hlt hlt' hch c₁ rest ih =>
    refine fun s' h hs => ih s' h (hs.wide ?_)
    exact Nat.or_lt_two_pow (n := 16) (sixBits_shiftLeft_lt _ 0 (by decide))
      (sixBits_shiftLeft_lt _ 6 (by decide))
  | case8 c rest s ch _ _ _ hch ih =>
    refine fun s' h hs => ih s' h ?_
    exact @Whole.wordOnly s hs 0x60 (by decide)
  | case9 c rest s ch _ _ _ _ hch ih => exact fun s' h hs => ih s' h (hs.narrow hch)
  | case10 c rest s ch _ _ _ _ _ ih =>
    refine fun s' h hs => ih s' h ?_
    exact @Whole.add s hs 0x3F (by decide) "3F".toList (@octets_formatX 128 0x3F (by decide)) _
  | case3 | case5 | case7 =>
    intro s' h
    cases h

theorem chktxt_octets {r : Checked} (h : chktxt txt = .ok r) (hmsg : r.msg = none) :
    (r.dcs = "00".toList ∧ Octets 128 r.txt ∧ r.txt.length ≤ 320) ∨
    (r.dcs = "08".toList ∧ Octets 256 r.txt ∧ r.txt.length ≤ 280) := by
  obtain ⟨s, hloop, rfl⟩ := chktxt_eq_ok h
  have hwhole := chktxtLoop_whole txt _ s hloop ⟨Octets.nil, Octets.nil⟩
  rcases s.choose_cases txt with ⟨hseven, heq⟩ | ⟨hwide, heq⟩ | ⟨-, -, msg, heq⟩
  · rw [heq]
    exact .inl ⟨rfl, hwhole.septets, hseven.2⟩
  · rw [heq]
    exact .inr ⟨rfl, hwhole.unicode, hwide.2⟩
  · rw [heq] at hmsg
    cases hmsg

theorem userOctets_ok {r : Checked} (h : chktxt txt = .ok r) (hmsg : r.msg = none) :
    ∃ ud, userOctets (formatX 2 (r.txt.length / 2)) r.dcs r.txt = .ok ud ∧ Octets 256 ud ∧
      ud.length ≤ 280 := by
  unfold userOctets
  rcases chktxt_octets h hmsg with ⟨hdcs, ⟨xs, hxs, htxt⟩, hlen⟩ | ⟨hdcs, hoctets, hlen⟩
  · have hcount : r.txt.length = 2 * xs.length := by
      rw [htxt]
      exact length_flatMap_formatX fun x hx => Nat.lt_trans (hxs x hx) (by decide)
    obtain ⟨os, hpack, hos, hlt, -⟩ := pack_spec hxs (by omega)
    have hhalf : r.txt.length / 2 = xs.length := by omega
    rw [if_pos hdcs, hhalf, htxt, hpack]
    refine ⟨_, rfl, ⟨os, hlt, rfl⟩, ?_⟩
    rw [length_flatMap_formatX hlt]
    omega
  · have hwide : ¬ r.dcs = "00".toList := by
      rw [hdcs]
      decide
    rw [if_neg hwide]
    exact ⟨_, rfl, hoctets, hlen⟩

/-! ### The length -/

theorem format03d_spec {n : Nat} (h : n < 1000) :
    (format03d n).length = 3 ∧ decimal? (format03d n) = some n := by
  have hlen : (decimal n).length ≤ 3 :=
    (Nat.length_toDigits_le_iff (by decide) (by decide)).mpr h
  refine ⟨?_, decimal?_leftpad 3 n⟩
  rw [format03d, length_leftpad]
  exact Nat.max_eq_left hlen

theorem length_addressField_le (dest : Destination) : (addressField dest.text).length ≤ 70 := by
  have hmax := dest.le_max
  rw [maxNumber] at hmax
  have htype : dest.addrType < 256 := by
    unfold Destination.addrType
    cases dest.plus <;> decide
  rw [addressField_text, length_append, length_append, length_swapDigits,
    length_padded, (formatX_spec _ (by omega)).1, (formatX_spec _ htype).1]
  omega

/-- Behind the empty field of the service centre the PDU is made of octets. -/
theorem pdu_octets (dest : Destination) {r : Checked} (h : chktxt txt = .ok r)
    (hmsg : r.msg = none) :
    ∃ (ud : List Char) (os : List Nat),
      userOctets (formatX 2 (r.txt.length / 2)) r.dcs r.txt = .ok ud ∧
      (∀ o ∈ os, o < 256) ∧ os.length < 1000 ∧
      "001100".toList ++ addressField dest.text ++ "00".toList ++ r.dcs ++ "AD".toList ++
        formatX 2 (r.txt.length / 2) ++ ud = "00".toList ++ os.flatMap (formatX 2) := by
  obtain ⟨ud, hud, hudOctets, hudLen⟩ := userOctets_ok h hmsg
  have hdcs : Octets 256 r.dcs ∧ r.dcs.length = 2 ∧ r.txt.length ≤ 320 := by
    rcases chktxt_octets h hmsg with ⟨hdcs, -, hlen⟩ | ⟨hdcs, -, hlen⟩
    · exact ⟨hdcs ▸ octets_pair (by decide) (by decide), by rw [hdcs]; rfl, hlen⟩
    · exact ⟨hdcs ▸ octets_pair (by decide) (by decide), by rw [hdcs]; rfl, by omega⟩
  obtain ⟨os, hos, hbody⟩ : Octets 256 ("1100".toList ++ addressField dest.text ++ "00".toList ++
      r.dcs ++ "AD".toList ++ formatX 2 (r.txt.length / 2) ++ ud) := by
    have hfirst : Octets 256 "1100".toList := octets_formatX_four (w := 0x1100) (by decide)
    have hpid : Octets 256 "00".toList := octets_pair (by decide) (by decide)
    have hvalidity : Octets 256 "AD".toList := octets_pair (by decide) (by decide)
    exact (((((hfirst.append (octets_addressField dest)).append hpid).append hdcs.1).append
      hvalidity).append (octets_formatX (by omega))).append hudOctets
  refine ⟨ud, os, hud, hos, ?_, by rw [← hbody]; rfl⟩
  have hudl := (formatX_spec (r.txt.length / 2) (by omega)).1
  have haddress := length_addressField_le dest
  have hlen : 4 + (addressField dest.text).length + 2 + r.dcs.length + 2 +
      (formatX 2 (r.txt.length / 2)).length + ud.length = 2 * os.length := by
    rw [← length_flatMap_formatX hos, ← hbody]
    simp only [length_append]
    rfl
  omega

/-- **The address and the length are right**: `parseDeliver` reads the destination back from the
    address field, whatever follows it, and for every text that `chktxt` lets pass the PDU has
    this field, the coding, the length and the packed text in their places, and the three digits
    in front count the octets behind the field of the service centre, which is empty. -/
theorem sendsms_spec (dest : Destination) :
    (∀ (rest : List Char) (d : Decoder),
      octet2binCheck (addressField dest.text ++ rest) = some dest.digits.length ∧
      senderAddress dest.digits.length (addressField dest.text ++ rest) d
        = .ok (some rest, { d with mNumber := some dest.text })) ∧
    ∀ (txt : List Char) (r : Checked), chktxt txt = .ok r → r.msg = none →
      ∃ (out : Output) (ud : List Char) (os : List Nat),
        sendsms dest.text r.dcs r.txt = .ok out ∧
        userOctets (formatX 2 (r.txt.length / 2)) r.dcs r.txt = .ok ud ∧
        out.pdu = "001100".toList ++ addressField dest.text ++ "00".toList ++ r.dcs ++
          "AD".toList ++ formatX 2 (r.txt.length / 2) ++ ud ∧
        (∀ o ∈ os, o < 256) ∧ out.pdu = "00".toList ++ os.flatMap (formatX 2) ∧
        out.pdul.length = 3 ∧ decimal? out.pdul = some os.length := by
  refine ⟨senderAddress_field dest, fun txt r h hmsg => ?_⟩
  obtain ⟨ud, os, hud, hos, hbound, hpdu⟩ := pdu_octets dest h hmsg
  have hcount : ("00".toList ++ os.flatMap (formatX 2)).length / 2 - 1 = os.length := by
    rw [length_append, length_flatMap_formatX hos]
    change (2 + 2 * os.length) / 2 - 1 = os.length
    omega
  have hsend : sendsms dest.text r.dcs r.txt
      = .ok ⟨format03d os.length, "00".toList ++ os.flatMap (formatX 2)⟩ := by
    unfold sendsms
    dsimp only
    rw [hud]
    change Except.ok _ = _
    rw [hpdu, hcount]
  obtain ⟨hwidth, hvalue⟩ := format03d_spec hbound
  exact ⟨_, ud, os, hsend, hud, hpdu.symm, hos, rfl, hwidth, hvalue⟩

def desk : Destination := ⟨true, "491701234".toList, by decide, by decide, by decide⟩

theorem sendsms_spec_desk :
    senderAddress 9 (addressField desk.text ++ "0011".toList) Decoder.initial
      = .ok (some "0011".toList, { Decoder.initial with mNumber := some "+491701234".toList }) ∧
    ∃ (out : Output) (ud : List Char) (os : List Nat),
      sendsms desk.text "00".toList "6869".toList = .ok out ∧
      userOctets "02".toList "00".toList "6869".toList = .ok ud ∧
      out.pdu = "001100099194711032F40000AD02".toList ++ ud ∧
      (∀ o ∈ os, o < 256) ∧ out.pdu = "00".toList ++ os.flatMap (formatX 2) ∧
      out.pdul.length = 3 ∧ decimal? out.pdul = some os.length :=
  ⟨((sendsms_spec desk).1 "0011".toList Decoder.initial).2,
    (sendsms_spec desk).2 "hi".toList ⟨none, "00".toList, "6869".toList⟩ (by decide +kernel) rfl⟩

end Rooter.SmsEncode
