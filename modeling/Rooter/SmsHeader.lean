import Rooter.SmsHex

/-!
# The user data header

A header is a list of information elements.  `concatinfo` walks over them until it finds one with
the data of a message in several parts; it finds the first of them wherever it stands.
-/

namespace Rooter.SmsRead

open List Numeral LuaString Program

/-! ### Information elements -/

structure Element where
  ident : List Char
  size : List Char
  data : List Char
  octets : Nat
  length_ident : ident.length = 2
  length_size : size.length = 2
  value_size : tonumber16 size = some octets
  length_data : data.length = 2 * octets
  digits : ∀ c ∈ ident ++ size ++ data, isxdigit c = true

namespace Element

def text (e : Element) : List Char := e.ident ++ (e.size ++ e.data)

/-- The data of a message in several parts, with a reference of one octet or of two. -/
def isConcat (e : Element) : Bool :=
  e.ident ++ e.size = "0003".toList || e.ident ++ e.size = "0804".toList

/-! The reference comes first, the number of parts and the number of the part last. -/

def reference (e : Element) : Nat := (tonumber16 (e.data.take (e.data.length - 4))).getD 0

def total (e : Element) : Nat := (tonumber16 ((e.data.drop (e.data.length - 4)).take 2)).getD 0

def part (e : Element) : Nat := (tonumber16 (e.data.drop (e.data.length - 2))).getD 0

def message (e : Element) : List Char :=
  "Msg# ".toList ++ decimal e.reference ++ [','] ++ decimal e.part ++ ['/'] ++ decimal e.total

end Element

def announced (es : List Element) (mConcat : Option (List Char)) : Option (List Char) :=
  match es.find? Element.isConcat with
  | none => mConcat
  | some e => if e.part = 1 ∧ e.total = 1 then mConcat else some e.message

variable {e : Element}

theorem eq_of_hexValue? {c : Char} {v : Nat} (h : hexValue? c = some v) (hv : v ≤ 9) :
    c = Char.ofNat (48 + v) := by
  have hcode : c.toNat = 48 + v := by
    rw [hexValue?_eq] at h
    split at h
    · cases h
      omega
    split at h
    · cases h
      omega
    split at h
    · cases h
      omega
    · cases h
  rw [← hcode, Char.ofNat_toNat]

theorem tonumber16_two {c₁ c₂ : Char} {v₁ v₂ : Nat} (h₁ : hexValue? c₁ = some v₁)
    (h₂ : hexValue? c₂ = some v₂) : tonumber16 [c₁, c₂] = some (v₁ * 16 + v₂) := by
  simp [tonumber16, h₁, h₂]

theorem tonumber16_eq_one {c₁ c₂ : Char} (h₁ : isxdigit c₁ = true) (h₂ : isxdigit c₂ = true) :
    tonumber16 [c₁, c₂] = some 1 ↔ [c₁, c₂] = "01".toList := by
  obtain ⟨v₁, hv₁⟩ := hexValue?_of_isxdigit h₁
  obtain ⟨v₂, hv₂⟩ := hexValue?_of_isxdigit h₂
  constructor
  · intro h
    rw [tonumber16_two hv₁ hv₂, Option.some.injEq] at h
    have hzero : v₁ = 0 := by omega
    have hone : v₂ = 1 := by omega
    rw [eq_of_hexValue? hv₁ (by omega), eq_of_hexValue? hv₂ (by omega), hzero, hone]
    rfl
  · intro h
    rw [h]
    decide

theorem tonumber16_getD {s : List Char} (hne : s ≠ []) (h : ∀ c ∈ s, isxdigit c = true) :
    tonumber16 s = some ((tonumber16 s).getD 0) := by
  obtain ⟨n, hn⟩ := Option.isSome_iff_exists.mp ((tonumber16_isSome_of_isxdigit h).mpr hne)
  rw [hn]
  rfl

theorem onlyPart_iff {c₁ c₂ c₃ c₄ : Char} (h : ∀ c ∈ [c₁, c₂, c₃, c₄], isxdigit c = true) :
    [c₁, c₂, c₃, c₄] = "0101".toList ↔
      (tonumber16 [c₃, c₄]).getD 0 = 1 ∧ (tonumber16 [c₁, c₂]).getD 0 = 1 := by
  have htotal := @tonumber16_eq_one c₁ c₂ (h c₁ (by simp)) (h c₂ (by simp))
  have hpart := @tonumber16_eq_one c₃ c₄ (h c₃ (by simp)) (h c₄ (by simp))
  rw [tonumber16_getD (by simp) fun c hc => h c (by simp at hc ⊢; tauto), Option.some.injEq]
    at htotal hpart
  rw [htotal, hpart]
  simp [and_comm, and_assoc]

theorem concatText_of_isxdigit {ref part total : List Char}
    (hne : ref ≠ [] ∧ part ≠ [] ∧ total ≠ [])
    (h : ∀ c ∈ ref ++ (part ++ total), isxdigit c = true) :
    concatLoop.concatText ref part total = .ok (some ("Msg# ".toList ++
      decimal ((tonumber16 ref).getD 0) ++ [','] ++ decimal ((tonumber16 part).getD 0) ++ ['/'] ++
        decimal ((tonumber16 total).getD 0))) := by
  have href := tonumber16_getD hne.1 fun c hc => h c (by simp [hc])
  have hpart := tonumber16_getD hne.2.1 fun c hc => h c (by simp [hc])
  have htotal := tonumber16_getD hne.2.2 fun c hc => h c (by simp [hc])
  rw [concatLoop.concatText, href, hpart, htotal]
  rfl

theorem concatLoop_short (r₁ r₂ t₁ t₂ p₁ p₂ : Char) (rest : List Char) (fuel : Nat)
    (mConcat : Option (List Char)) :
    concatLoop (fuel + 1) ("0003".toList ++ ([r₁, r₂, t₁, t₂, p₁, p₂] ++ rest)) mConcat
      = if [t₁, t₂, p₁, p₂] = "0101".toList then .ok mConcat
        else concatLoop.concatText [r₁, r₂] [p₁, p₂] [t₁, t₂] := by
  rfl

theorem concatLoop_long (r₁ r₂ r₃ r₄ t₁ t₂ p₁ p₂ : Char) (rest : List Char) (fuel : Nat)
    (mConcat : Option (List Char)) :
    concatLoop (fuel + 1) ("0804".toList ++ ([r₁, r₂, r₃, r₄, t₁, t₂, p₁, p₂] ++ rest)) mConcat
      = if [t₁, t₂, p₁, p₂] = "0101".toList then .ok mConcat
        else concatLoop.concatText [r₁, r₂, r₃, r₄] [p₁, p₂] [t₁, t₂] := rfl

theorem concat_result {ref : List Char} {t₁ t₂ p₁ p₂ : Char} (hne : ref ≠ [])
    (h : ∀ c ∈ ref ++ [t₁, t₂, p₁, p₂], isxdigit c = true) (mConcat : Option (List Char)) :
    (if [t₁, t₂, p₁, p₂] = "0101".toList then .ok mConcat
      else concatLoop.concatText ref [p₁, p₂] [t₁, t₂])
      = .ok (if (tonumber16 [p₁, p₂]).getD 0 = 1 ∧ (tonumber16 [t₁, t₂]).getD 0 = 1 then mConcat
        else some ("Msg# ".toList ++ decimal ((tonumber16 ref).getD 0) ++ [','] ++
          decimal ((tonumber16 [p₁, p₂]).getD 0) ++ ['/'] ++
          decimal ((tonumber16 [t₁, t₂]).getD 0))) := by
  have honly := @onlyPart_iff t₁ t₂ p₁ p₂ fun c hc => h c (mem_append_right _ hc)
  split
  · next hone =>
    rw [if_pos (honly.mp hone)]
  · next hone =>
    rw [if_neg (mt honly.mpr hone)]
    refine concatText_of_isxdigit ⟨hne, by simp, by simp⟩ fun c hc => h c ?_
    simp only [mem_append, mem_cons] at hc ⊢
    tauto

theorem Element.head_eq {a b : List Char} (ha : a.length = 2) (h : e.ident ++ e.size = a ++ b)
    {n : Nat} (hb : tonumber16 b = some n) : e.ident = a ∧ e.size = b ∧ e.data.length = 2 * n := by
  obtain ⟨hident, hsize⟩ := append_inj h (by rw [e.length_ident, ha])
  have hvalue := e.value_size
  rw [hsize, hb, Option.some.injEq] at hvalue
  exact ⟨hident, hsize, by rw [e.length_data, hvalue]⟩

theorem Element.isConcat_iff : e.isConcat = true ↔
    (e.ident = ['0', '0'] ∧ e.size = ['0', '3'] ∧ e.data.length = 6) ∨
      (e.ident = ['0', '8'] ∧ e.size = ['0', '4'] ∧ e.data.length = 8) := by
  rw [Element.isConcat, Bool.or_eq_true, decide_eq_true_eq, decide_eq_true_eq]
  constructor
  · rintro (h | h)
    · exact .inl (Element.head_eq (n := 3) rfl h (by decide))
    · exact .inr (Element.head_eq (n := 4) rfl h (by decide))
  · rintro (⟨hident, hsize, -⟩ | ⟨hident, hsize, -⟩)
    · exact .inl (by rw [hident, hsize]; rfl)
    · exact .inr (by rw [hident, hsize]; rfl)

theorem Element.digits_data (e : Element) : ∀ c ∈ e.data, isxdigit c = true :=
  fun c hc => e.digits c (mem_append_right _ hc)

theorem concatLoop_concat (he : e.isConcat = true) (rest : List Char) (fuel : Nat)
    (mConcat : Option (List Char)) : concatLoop (fuel + 1) (e.text ++ rest) mConcat
      = .ok (if e.part = 1 ∧ e.total = 1 then mConcat else some e.message) := by
  have hdigits := e.digits_data
  unfold Element.message Element.part Element.total Element.reference Element.text
  rcases Element.isConcat_iff.mp he with ⟨hident, hsize, hdata⟩ | ⟨hident, hsize, hdata⟩
  · rw [hident, hsize]
    match e.data, hdata, hdigits with
    | [r₁, r₂, t₁, t₂, p₁, p₂], _, hdigits =>
      exact (concatLoop_short r₁ r₂ t₁ t₂ p₁ p₂ rest fuel mConcat).trans
        (@concat_result [r₁, r₂] t₁ t₂ p₁ p₂ (by simp) hdigits mConcat)
  · rw [hident, hsize]
    match e.data, hdata, hdigits with
    | [r₁, r₂, r₃, r₄, t₁, t₂, p₁, p₂], _, hdigits =>
      exact (concatLoop_long r₁ r₂ r₃ r₄ t₁ t₂ p₁ p₂ rest fuel mConcat).trans
        (@concat_result [r₁, r₂, r₃, r₄] t₁ t₂ p₁ p₂ (by simp) hdigits mConcat)

theorem length_text (e : Element) : e.text.length = 4 + 2 * e.octets := by
  rw [Element.text, length_append, length_append, e.length_ident, e.length_size, e.length_data]
  omega

theorem concatLoop_other (he : ¬ e.isConcat = true) {rest : List Char}
    (hlong : 9 < (e.text ++ rest).length) (fuel : Nat) (mConcat : Option (List Char)) :
    concatLoop (fuel + 1) (e.text ++ rest) mConcat = concatLoop fuel rest mConcat := by
  have hhead : (e.ident ++ e.size).length = 4 := by
    rw [length_append, e.length_ident, e.length_size]
  have htext : e.text ++ rest = e.ident ++ e.size ++ (e.data ++ rest) := by
    simp only [Element.text, append_assoc]
  have hfour : sub (e.text ++ rest) 1 4 = e.ident ++ e.size := by
    rw [htext, sub, ← hhead, take_left]
    rfl
  have hsize : sub (e.text ++ rest) 3 4 = e.size := by
    rw [htext, sub, ← hhead, take_left]
    exact drop_left' e.length_ident
  have hrest : subFrom (e.text ++ rest) (5 + e.octets * 2) = rest := by
    apply drop_left'
    rw [length_text]
    omega
  simp only [Element.isConcat, Bool.or_eq_true, decide_eq_true_eq, not_or] at he
  rw [concatLoop, if_neg (by omega), hfour, if_neg he.1, if_neg he.2, hsize, e.value_size]
  dsimp only
  rw [hrest]

theorem length_text_concat (he : e.isConcat = true) : 10 ≤ e.text.length := by
  have hdata := e.length_data
  rw [length_text]
  rcases Element.isConcat_iff.mp he with ⟨-, -, h⟩ | ⟨-, -, h⟩ <;> omega

theorem announced_of_length_le {es : List Element} (h : (es.flatMap Element.text).length ≤ 9)
    (mConcat : Option (List Char)) : announced es mConcat = mConcat := by
  have hnone : es.find? Element.isConcat = none := by
    rw [find?_eq_none]
    intro e he hconcat
    have hten := length_text_concat hconcat
    obtain ⟨before, behind, rfl⟩ := append_of_mem he
    simp only [flatMap_append, flatMap_cons, length_append] at h
    omega
  rw [announced, hnone]

/-- **The first concatenation element is found** behind any number of other elements. -/
theorem concatLoop_elements (es : List Element) : ∀ {fuel : Nat} (mConcat : Option (List Char)),
    (es.flatMap Element.text).length ≤ fuel →
      concatLoop fuel (es.flatMap Element.text) mConcat = .ok (announced es mConcat) := by
  induction es with
  | nil =>
    intro fuel mConcat _
    cases fuel with
    | zero => rfl
    | succ fuel => rfl
  | cons e es ih =>
    intro fuel mConcat hfuel
    have hlen := length_text e
    rw [flatMap_cons] at hfuel ⊢
    rw [length_append] at hfuel
    obtain ⟨fuel, rfl⟩ : ∃ m, fuel = m + 1 := ⟨fuel - 1, by omega⟩
    by_cases he : e.isConcat = true
    · rw [concatLoop_concat he, announced, find?_cons_of_pos he]
    · have hskip : announced (e :: es) mConcat = announced es mConcat := by
        rw [announced, find?_cons_of_neg he, announced]
      rw [hskip]
      by_cases hlong : 9 < (e.text ++ es.flatMap Element.text).length
      · rw [concatLoop_other he hlong]
        exact ih mConcat (by omega)
      · -- too short for a concatenation element
        rw [concatLoop, if_pos (by omega), announced_of_length_le]
        rw [length_append] at hlong
        omega

theorem readUdh_elements {es : List Element} {udl udhl : List Char} (hudl : udl.length = 2)
    (hwidth : udhl.length = 2) {n : Nat} (hudhl : tonumber16 udhl = some n)
    (hsize : (es.flatMap Element.text).length = 2 * n) (rest : List Char) (d : Decoder) :
    readUdh (udl ++ (udhl ++ (es.flatMap Element.text ++ rest))) d
      = .ok (octet2binCheck udhl, { d with mConcat := announced es d.mConcat }) := by
  have hbehind : subFrom (udl ++ (udhl ++ (es.flatMap Element.text ++ rest))) 3
      = udhl ++ (es.flatMap Element.text ++ rest) := drop_left' hudl
  have hfirst : sub (udhl ++ (es.flatMap Element.text ++ rest)) 1 2 = udhl := by
    rw [sub, ← hwidth, take_left]
    rfl
  have hheader : sub (udhl ++ (es.flatMap Element.text ++ rest)) 3 ((n + 1) * 2)
      = es.flatMap Element.text := by
    rw [sub, ← append_assoc, take_left' (by rw [length_append]; omega)]
    exact drop_left' hwidth
  have hconcat := concatLoop_elements es d.mConcat (Nat.le_refl _)
  unfold readUdh
  rw [hbehind, hfirst, hudhl]
  dsimp only
  rw [run_bind_of_ok (run_get d), hheader, concatinfo, hconcat, run_bind_of_ok (run_lift_ok _ d),
    octet2binCheck_append (by omega)]
  rfl

/-- **Concatenation data are found wherever they stand**: `concatinfo` ends with the data of the
    first concatenation element, however many rounds it is given, and so do the header lines of
    `pdu2text` and `pdu2binary`. -/
theorem concatinfo_elements (es : List Element) (mConcat : Option (List Char)) :
    concatinfo (es.flatMap Element.text) mConcat = .ok (announced es mConcat) ∧
    (∀ fuel, (es.flatMap Element.text).length ≤ fuel →
      concatLoop fuel (es.flatMap Element.text) mConcat = .ok (announced es mConcat)) ∧
    (∀ (udl udhl rest : List Char) (n : Nat) (d : Decoder), udl.length = 2 → udhl.length = 2 →
      tonumber16 udhl = some n → (es.flatMap Element.text).length = 2 * n →
      readUdh (udl ++ (udhl ++ (es.flatMap Element.text ++ rest))) d
        = .ok (octet2binCheck udhl, { d with mConcat := announced es d.mConcat })) := by
  refine ⟨concatLoop_elements es mConcat (Nat.le_refl _), ?_, ?_⟩
  · intro fuel hfuel
    exact concatLoop_elements es mConcat hfuel
  · intro udl udhl rest n d hudl hwidth hudhl hsize
    exact readUdh_elements hudl hwidth hudhl hsize rest d

def portElement : Element where
  ident := "05".toList
  size := "04".toList
  data := "0b8423F0".toList
  octets := 4
  length_ident := rfl
  length_size := rfl
  value_size := by decide
  length_data := rfl
  digits := all_eq_true.mp (by decide)

def partElement : Element where
  ident := "00".toList
  size := "03".toList
  data := "2A0302".toList
  octets := 3
  length_ident := rfl
  length_size := rfl
  value_size := by decide
  length_data := rfl
  digits := all_eq_true.mp (by decide)

theorem concatinfo_elements_second :
    concatinfo "05040b8423F000032A0302".toList none = .ok (some "Msg# 42,2/3".toList) := by
  have hresult : announced [portElement, partElement] none = some "Msg# 42,2/3".toList := by
    decide +kernel
  rw [← hresult]
  exact (concatinfo_elements [portElement, partElement] none).1

end Rooter.SmsRead
