import Rooter.SmsText
import Rooter.SmsParse

/-!
# The layout of a PDU

`parse` mixes finding the fields of a PDU with decoding them.  This module says where
the fields are: the first octet, the address with its length and type, the user data
with its length octet.  The functions of the decoder are rewritten in these terms.
-/

namespace Rooter.SmsRead

open List Numeral LuaString Program

/-! ### Fields -/

theorem parseSMSC_ok (pdu : List Char) : ∃ behind, parseSMSC pdu = .ok behind := by
  unfold parseSMSC
  cases octet2binCheck pdu with
  | none => exact ⟨_, rfl⟩
  | some length =>
    dsimp only
    split
    · exact ⟨_, rfl⟩
    · split
      · exact ⟨_, rfl⟩
      · split
        · exact ⟨_, rfl⟩
        · cases octet2binCheck (subFrom pdu 3) with
          | none => exact ⟨_, rfl⟩
          | some addrType =>
            dsimp only
            split
            · exact ⟨_, rfl⟩
            · -- at least one octet of the address is there
              have hpair : ¬ ((subFrom (subFrom pdu 3) 3).take (length * 2 - 2)).length < 2 := by
                simp only [subFrom, length_take, length_drop]
                omega
              rw [swapchars, if_neg hpair]
              exact ⟨_, (apply_ite Except.ok _ _ _).symm⟩

/-- The first octet behind the service centre, and what stands behind it. -/
def firstOctet (pdu : List Char) : Option (Nat × List Char) :=
  match parseSMSC pdu with
  | .ok (some ptr) => (octet2binCheck ptr).map fun tmp => (tmp, subFrom ptr 3)
  | _ => none

/-- An address: its length in digits, its type, and the digits from there on. -/
structure Address where
  length : Nat
  addrType : Nat
  ptr : List Char
deriving DecidableEq, Repr

namespace Address

variable (a : Address)

def width : Nat := a.length + a.length % 2

def Named : Prop := a.addrType &&& 112 = 80

instance : Decidable a.Named := inferInstanceAs (Decidable (_ = _))

def behind : List Char := a.ptr.drop a.width

def Readable (htmp : Nat → List Char) : Prop :=
  a.Named → a.width ≤ a.ptr.length ∧ TextComplete (htmp (a.length * 4 / 7) ++ a.ptr)

instance (htmp : Nat → List Char) : Decidable (a.Readable htmp) :=
  inferInstanceAs (Decidable (_ → _))

end Address

def deliverAddress (ptr : List Char) : Option Address :=
  if ptr.length < 4 then none
  else
    match octet2binCheck ptr with
    | none => none
    | some length =>
        if maxNumber < length then none
        else if length = 0 then some ⟨0, 0, ptr.drop 4⟩
        else
          match octet2binCheck (ptr.drop 2) with
          | none => none
          | some addrType => if addrType < 0x80 then none else some ⟨length, addrType, ptr.drop 4⟩

def reportAddress (ptr : List Char) : Option (Nat × Address) :=
  if ptr.length < 6 then none
  else
    match octet2binCheck ptr, octet2binCheck (ptr.drop 2), octet2binCheck (ptr.drop 4) with
    | some messageid, some length, some addrType =>
        if length < 1 ∨ maxNumber < length ∨ addrType < 0x80 then none
        else some (messageid, ⟨length, addrType, ptr.drop 6⟩)
    | _, _, _ => none

/-- The alphabet of a DELIVER and the digits from the length octet of the user data on. -/
def userData (ptr : List Char) : Option (Nat × List Char) :=
  if ptr.length < 20 then none
  else
    match octet2binCheck ptr, octet2binCheck (ptr.drop 2), octet2binCheck (ptr.drop 16) with
    | some _, some dcs, some _ =>
        if (dcs &&& 0x0C) / 4 = 3 then none else some ((dcs &&& 0x0C) / 4, ptr.drop 18)
    | _, _, _ => none

/-! ### The decoder in terms of the fields -/

def readSender (a : Address) : Lua (Option (List Char)) :=
  readAddress upperOctet blankLines true a.length a.addrType a.ptr

theorem subFrom_drop (ptr : List Char) (i j : Nat) :
    subFrom (ptr.drop i) j = ptr.drop (i + (j - 1)) := by
  rw [subFrom, drop_drop]

theorem parseDeliver_eq (ptr : List Char) :
    parseDeliver ptr =
      match deliverAddress ptr with
      | none => pure 0
      | some a =>
          if a.length = 0 then deliverBody a.ptr
          else readSender a >>= fun behind =>
            match behind with
            | none => pure 0
            | some ptr => deliverBody ptr := by
  unfold parseDeliver deliverAddress
  by_cases hshort : ptr.length < 4
  · simp [hshort]
  · simp only [if_neg hshort]
    cases octet2binCheck ptr with
    | none => rfl
    | some length =>
      by_cases hmax : maxNumber < length
      · simp [hmax]
      · simp only [if_neg hmax, senderAddress]
        by_cases hzero : length = 0
        · simp [hzero, subFrom]
        · have h2 : subFrom ptr 3 = ptr.drop 2 := rfl
          simp only [if_neg hzero, h2]
          cases octet2binCheck (ptr.drop 2) with
          | none => simp
          | some addrType =>
            by_cases htype : addrType < 0x80
            · simp [htype]
            · simp only [if_neg htype, if_neg hzero, subFrom_drop]
              rfl

theorem parseStatusReport_eq (ptr : List Char) :
    parseStatusReport ptr =
      match reportAddress ptr with
      | none => pure 0
      | some (messageid, a) =>
          readAddress hexOctet id false a.length a.addrType a.ptr >>= fun behind =>
            match behind with
            | none => pure 0
            | some ptr => reportBody messageid ptr := by
  unfold parseStatusReport reportAddress
  by_cases hshort : ptr.length < 6
  · simp [hshort]
  · have h2 : subFrom ptr 3 = ptr.drop 2 := rfl
    simp only [if_neg hshort, h2, subFrom_drop]
    cases octet2binCheck ptr with
    | none => rfl
    | some messageid =>
      cases octet2binCheck (ptr.drop 2) with
      | none => rfl
      | some length =>
        by_cases hrange : length < 1 ∨ maxNumber < length
        · simp only [if_pos hrange]
          cases octet2binCheck (ptr.drop 4) with
          | none => rfl
          | some addrType =>
            dsimp only
            rw [if_pos (by omega)]
        · simp only [if_neg hrange]
          cases octet2binCheck (ptr.drop 4) with
          | none => rfl
          | some addrType =>
            dsimp only
            split
            · rw [if_pos (by omega)]
            next hlow =>
              have hpass : ¬ (length < 1 ∨ maxNumber < length ∨ addrType < 128) := by omega
              exact if_neg hpass ▸ rfl

theorem parse_eq (pdu : List Char) :
    parse pdu =
      match firstOctet pdu with
      | none => pure 0
      | some (tmp, ptr) => parseTpdu tmp ptr := by
  obtain ⟨behind, hbehind⟩ := parseSMSC_ok pdu
  funext d
  unfold parse firstOctet
  rw [hbehind, run_bind_of_ok (run_lift_ok behind d)]
  cases behind with
  | none => rfl
  | some ptr =>
    dsimp only
    cases octet2binCheck ptr with
    | none => rfl
    | some tmp => rfl

/-! ### Addresses -/

theorem readAddress_named {a : Address} (ha : a.Named) (htmp : Nat → List Char)
    (clean : List Char → List Char) (plus : Bool) :
    readAddress htmp clean plus a.length a.addrType a.ptr =
      if a.ptr.length < a.width then pure none
      else pdu2text (htmp (a.length * 4 / 7) ++ a.ptr) false >>= fun res =>
        if res < 0 then pure none
        else (modify fun d => { d with mNumber := d.mText.map clean, mText := none }) >>= fun _ =>
          pure (some a.behind) := by
  unfold readAddress
  rw [if_pos (show a.addrType &&& 112 = 80 from ha)]
  rfl

def Address.number (a : Address) (plus : Bool) (swapped : List Char) : List Char :=
  let number := if swapped[a.width - 1]? = some 'F' then swapped.take (a.width - 1) else swapped
  if plus ∧ a.addrType = 145 then '+' :: number else number

theorem readAddress_number {a : Address} (ha : ¬ a.Named) (htmp : Nat → List Char)
    (clean : List Char → List Char) (plus : Bool) :
    readAddress htmp clean plus a.length a.addrType a.ptr =
      match swapchars (a.ptr.take (a.width + 1)) with
      | none => throw .indexNil
      | some swapped =>
          (modify fun d => { d with mNumber := some (a.number plus swapped) }) >>= fun _ =>
            pure (some a.behind) := by
  unfold readAddress
  rw [if_neg (show ¬ a.addrType &&& 112 = 80 from ha)]
  rfl

/-! ### From the address to the user data -/

/-- The variables that the fields between address and user data are stored in. -/
def Decoder.withFields (d : Decoder) (alphabet : Int) (dcs : Option Nat)
    (date time : Option (List Char)) : Decoder :=
  { d with mAlphabet := alphabet, mDcs := dcs, mDate := date, mTime := time }

variable {ptr : List Char}

theorem hexValue?_of_isxdigit {c : Char} (hc : isxdigit c = true) : ∃ n, hexValue? c = some n := by
  simp only [isxdigit, Bool.or_eq_true, Bool.and_eq_true, decide_eq_true_eq] at hc
  rw [hexValue?_eq]
  rcases hc with (h | h) | h
  · exact ⟨_, if_pos h⟩
  · exact ⟨c.toNat - 87, by rw [if_neg (by omega), if_neg (by omega), if_pos h]⟩
  · exact ⟨c.toNat - 55, by rw [if_neg (by omega), if_pos h]⟩

theorem tonumber16_of_isxdigit {c : Char} (hc : isxdigit c = true) :
    ∃ n, tonumber16 [c] = some n := by
  obtain ⟨n, hn⟩ := hexValue?_of_isxdigit hc
  refine ⟨n, ?_⟩
  simp [tonumber16, hn]

theorem octet2binCheck_eq_some {s : List Char} {n : Nat} (h : octet2binCheck s = some n) :
    ∃ c₁ c₂ rest, s = c₁ :: c₂ :: rest ∧ isxdigit c₁ = true ∧ isxdigit c₂ = true := by
  match s, h with
  | c₁ :: c₂ :: rest, h =>
    simp only [octet2binCheck] at h
    split at h
    · next hx =>
      rw [Bool.and_eq_true] at hx
      exact ⟨c₁, c₂, rest, rfl, hx.1, hx.2⟩
    · cases h

theorem timezone_ok {n : Nat} (h : octet2binCheck (ptr.drop 6) = some n) :
    ∃ zone, timezone ptr = .ok zone := by
  obtain ⟨c₁, c₂, rest, hs, h₁, h₂⟩ := octet2binCheck_eq_some h
  have hlow : sub ptr 7 7 = [c₁] := by
    have : sub ptr 7 7 = (ptr.drop 6).take 1 := by simp [sub, drop_take]
    rw [this, hs]
    rfl
  have hhigh : sub ptr 8 8 = [c₂] := by
    have : sub ptr 8 8 = ((ptr.drop 6).drop 1).take 1 := by
      simp [sub, drop_take]
    rw [this, hs]
    rfl
  obtain ⟨low, hl⟩ := tonumber16_of_isxdigit h₁
  obtain ⟨high, hh⟩ := tonumber16_of_isxdigit h₂
  simp only [timezone, hlow, hhigh, hl, hh]
  exact ⟨_, rfl⟩

theorem run_checkDigits {α : Type} (h : 6 ≤ ptr.length) (k : PUnit → Lua α) (d : Decoder) :
    (liftM (checkDigits ptr) >>= k) d = k ⟨⟩ d := by
  rw [checkDigits, if_neg (by omega)]
  rfl

theorem run_checkDigits_error {α : Type} (h : ptr.length < 6) (k : PUnit → Lua α) (d : Decoder) :
    (liftM (checkDigits ptr) >>= k) d = .error .compareNil := by
  rw [checkDigits, if_pos h]
  rfl

/-- **Complete fields lead to the user data**, with `m_text` and `m_number` untouched. -/
theorem deliverBody_some {ud : List Char} {alphabet : Nat} (h : userData ptr = some (alphabet, ud))
    (d : Decoder) : ∃ dcs date time,
      deliverBody ptr d
        = (if alphabet = 0 then pdu2text ud d.mWithUdh else pdu2binary ud d.mWithUdh)
          (d.withFields (if alphabet = 0 then -1 else alphabet) (some dcs) (some date)
            (some time)) ∧
      date = swapThree '-' (ptr.drop 4) ∧
      ∃ zone, time = swapThree ':' (ptr.drop 10) ++ ' ' :: zone ++ ['h'] := by
  unfold userData at h
  by_cases hshort : ptr.length < 20
  · rw [if_pos hshort] at h
    cases h
  · rw [if_neg hshort] at h
    cases hpid : octet2binCheck ptr with
    | none => simp [hpid] at h
    | some pid =>
      cases hdcs : octet2binCheck (ptr.drop 2) with
      | none => simp [hdcs] at h
      | some dcs =>
        cases htz : octet2binCheck (ptr.drop 16) with
        | none => simp [htz] at h
        | some tz =>
          simp only [hpid, hdcs, htz] at h
          split at h
          · cases h
          · next halph =>
            obtain ⟨rfl, rfl⟩ := h
            have halph' : ¬ (((dcs &&& 0x0C) / 4 : Nat) : Int) = 3 := by omega
            have htz' : octet2binCheck ((ptr.drop 10).drop 6) = some tz := by
              rw [drop_drop]
              exact htz
            obtain ⟨zone, hzone⟩ := timezone_ok htz'
            have h2 : subFrom ptr 3 = ptr.drop 2 := rfl
            refine ⟨dcs, _, _, ?_, rfl, zone, rfl⟩
            unfold deliverBody
            simp only [if_neg hshort, hpid, h2, hdcs, subFrom_drop]
            rw [run_modify_bind, if_neg halph', run_modify_bind, run_checkDigits (by simp; omega),
              run_modify_bind, run_checkDigits (by simp; omega), hzone,
              run_bind_of_ok (run_lift_ok _ _), run_modify_bind, htz]
            dsimp only
            rw [run_bind_of_ok (run_get _)]
            by_cases hzero : (dcs &&& 0x0C) / 4 = 0
            · simp [hzero, Decoder.withFields]
            · have hpos : ¬ (((dcs &&& 0x0C) / 4 : Nat) : Int) ≤ 0 := by omega
              have hne : ¬ (((dcs &&& 0x0C) / 4 : Nat) : Int) = 0 := by omega
              simp only [if_neg hzero, if_neg hne, if_neg hpos]
              rfl

/-- Without them the PDU is rejected before `m_text` is set; only a time zone that is no
    pair of hexadecimal digits stops the script. -/
theorem deliverBody_none (h : userData ptr = none) (d : Decoder) :
    (∃ alphabet dcs date time,
      deliverBody ptr d = .ok (0, d.withFields alphabet dcs date time)) ∨
      (20 ≤ ptr.length ∧ octet2binCheck (ptr.drop 16) = none ∧
        ∃ e, deliverBody ptr d = .error e) := by
  unfold userData at h
  unfold deliverBody
  have h2 : subFrom ptr 3 = ptr.drop 2 := rfl
  simp only [h2, subFrom_drop]
  by_cases hshort : ptr.length < 20
  · rw [if_pos hshort]
    exact .inl ⟨d.mAlphabet, d.mDcs, d.mDate, d.mTime, rfl⟩
  · rw [if_neg hshort] at h ⊢
    cases hpid : octet2binCheck ptr with
    | none => exact .inl ⟨d.mAlphabet, d.mDcs, d.mDate, d.mTime, rfl⟩
    | some pid =>
      cases hdcs : octet2binCheck (ptr.drop 2) with
      | none => exact .inl ⟨d.mAlphabet, d.mDcs, d.mDate, d.mTime, rfl⟩
      | some dcs =>
        dsimp only
        rw [run_modify_bind]
        by_cases halph : (dcs &&& 0x0C) / 4 = 3
        · have halph' : (((dcs &&& 0x0C) / 4 : Nat) : Int) = 3 := by omega
          rw [if_pos halph']
          exact .inl ⟨_, d.mDcs, d.mDate, d.mTime, rfl⟩
        · have halph' : ¬ (((dcs &&& 0x0C) / 4 : Nat) : Int) = 3 := by omega
          rw [if_neg halph', run_modify_bind, run_checkDigits (by simp; omega), run_modify_bind,
            run_checkDigits (by simp; omega)]
          cases htz : octet2binCheck (ptr.drop 16) with
          | some tz => simp [hpid, hdcs, htz, halph] at h
          | none =>
            cases hzone : timezone (ptr.drop 10) with
            | error e =>
              exact .inr ⟨by omega, rfl, e, rfl⟩
            | ok zone =>
              exact .inl ⟨_, _, _, _, rfl⟩

/-! ### The status report -/

def Decoder.withReport (d : Decoder) (date time text : Option (List Char)) : Decoder :=
  { d with mDate := date, mTime := time, mText := text }

theorem reportBody_error (hlow : 14 ≤ ptr.length) (hhigh : ptr.length < 26)
    (htz : (octet2binCheck (ptr.drop 12)).isSome = true) (messageid : Nat) (d : Decoder) :
    reportBody messageid ptr d = .error .compareNil := by
  obtain ⟨tz, htz⟩ := Option.isSome_iff_exists.mp htz
  have h7 : subFrom ptr 7 = ptr.drop 6 := rfl
  unfold reportBody
  simp only [h7, subFrom_drop]
  rw [if_neg (by omega), run_checkDigits (by omega), run_modify_bind,
    run_checkDigits (by simp; omega), run_modify_bind, htz]
  dsimp only
  by_cases hsix : ptr.length < 20
  · rw [run_checkDigits_error (by simp; omega)]
  · rw [run_checkDigits (by simp; omega), run_checkDigits_error (by simp; omega)]

theorem reportBody_ok
    (hlen : ptr.length < 14 ∨ 26 ≤ ptr.length ∨ octet2binCheck (ptr.drop 12) = none)
    (messageid : Nat) (d : Decoder) : ∃ date time text result,
      reportBody messageid ptr d = .ok (result, d.withReport date time text) ∧
        ((result = 0 ∧ text = d.mText) ∨
          (result = 1 ∧ date = some (swapThree '-' ptr) ∧
            time = some (swapThree ':' (ptr.drop 6)) ∧ text.isSome = true)) ∧
        (30 ≤ ptr.length → (octet2binCheck (ptr.drop 12)).isSome = true →
          (octet2binCheck (ptr.drop 26)).isSome = true →
          (octet2binCheck (ptr.drop 28)).isSome = true → result = 1) ∧
        (ptr.length < 30 → result = 0) := by
  have h7 : subFrom ptr 7 = ptr.drop 6 := rfl
  unfold reportBody
  simp only [h7, subFrom_drop]
  split
  · exact ⟨d.mDate, d.mTime, d.mText, 0, rfl, .inl ⟨rfl, rfl⟩, by omega, fun _ => rfl⟩
  · next hshort =>
    rw [run_checkDigits (by omega), run_modify_bind,
      run_checkDigits (by simp; omega), run_modify_bind]
    cases htz : octet2binCheck (ptr.drop 12) with
    | none =>
      exact ⟨_, _, d.mText, 0, rfl, .inl ⟨rfl, rfl⟩, by simp, fun _ => rfl⟩
    | some tz =>
      have h26 : 26 ≤ ptr.length := by
        rcases hlen with h | h | h
        · exact absurd h hshort
        · exact h
        · rw [htz] at h
          cases h
      dsimp only
      rw [run_checkDigits (by simp; omega), run_checkDigits (by simp; omega)]
      cases htz2 : octet2binCheck (ptr.drop 26) with
      | none => exact ⟨_, _, d.mText, 0, rfl, .inl ⟨rfl, rfl⟩, by simp, fun _ => rfl⟩
      | some tz2 =>
        cases hstatus : octet2binCheck (ptr.drop 28) with
        | none => exact ⟨_, _, d.mText, 0, rfl, .inl ⟨rfl, rfl⟩, by simp, fun _ => rfl⟩
        | some status =>
          dsimp only
          refine ⟨_, _, _, 1, rfl, .inr ⟨rfl, rfl, rfl, rfl⟩, fun _ _ _ _ => rfl, fun hlt => ?_⟩
          -- the status octet reaches up to the thirtieth character
          obtain ⟨c₁, c₂, rest, hs, -⟩ := octet2binCheck_eq_some hstatus
          have hcount := congrArg length hs
          simp only [length_drop, length_cons] at hcount
          omega

end Rooter.SmsRead
