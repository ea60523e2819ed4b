import Mathlib.Algebra.Group.Nat.Defs
import Mathlib.Data.List.Range
import Mathlib.Data.List.TakeWhile
import Rooter.Numeral

/-!
# Band masks: `encodemask`, `lock.sh` and `mask.sh`

A band selection travels in three forms: the bit string the web page posts, the
hexadecimal mask stored for the modem, and the list of band numbers put into AT
commands.  `encode` (lock.sh) turns the bit string into a mask with the Lua program
`encodemask`; `fibdecode` (lock.sh) turns a mask into a band list; `reverse`
(mask.sh) turns a mask back into a bit string.

The table of `encodemask` is described by a function of the nibble number
(`tableOf`), on which one argument acts by `addBand`.
-/

namespace Rooter.BandMask

open List Numeral

/-! ### encodemask -/

/-- Reading `t[i]` from a Lua table filled from index 1 on; `none` is `nil`. -/
def luaIndex {α : Type} (t : List α) (i : Int) : Option α :=
  if 1 ≤ i then t[(i - 1).toNat]? else none

def vtab : List Nat := [1, 2, 4, 8]

/-- The loop body of `encodemask`.  `none` is the runtime error of adding to `nil`. -/
def addBand (mtab : List Nat) (band : Nat) : Option (List Nat) :=
  if band ≤ 272 then do
    let idx : Int := ((band : Int) - 1) / 4 + 1
    let idxr : Int := 73 - idx
    let val ← luaIndex vtab ((band : Int) - (idx - 1) * 4)
    let old ← luaIndex mtab idxr
    some (mtab.set (idxr - 1).toNat (old + val))
  else some mtab

/-- What `encodemask` prints; nothing when an argument stops it. -/
def encodemask (args : List (List Char)) : List Char :=
  let printed : Option (List Char) := do
    let bands ← args.mapM decimal?
    let mtab ← bands.foldlM addBand (replicate 72 0)
    some (mtab.flatMap upperHex)
  printed.getD []

/-! ### encode -/

/-- The loop of `encode`: the numbers, from `ii` on, of the ones of the string. -/
def onesFrom (ii : Nat) : List Char → List Nat
  | [] => []
  | dgt :: rest => if dgt = '1' then ii :: onesFrom (ii + 1) rest else onesFrom (ii + 1) rest

def encode (maskz : List Char) : List Char :=
  (encodemask ((onesFrom 1 maskz).map decimal)).dropWhile (· = '0')

/-! ### The nibble loop shared by `fibdecode` and `reverse` -/

def bitChar (bit : Nat) : Char := if bit = 0 then '0' else '1'

/-- `while [ $DecNum -ne 0 ]`: the binary numeral, highest bit first.  The first
    argument bounds the number of rounds. -/
def binaryLoop : Nat → Nat → List Char → List Char
  | 0, _, binary => binary
  | fuel + 1, decNum, binary =>
      if decNum ≠ 0 then binaryLoop fuel (decNum / 2) (bitChar (decNum % 2) :: binary)
      else binary

def revNibble (dgt : Char) : List Char :=
  let decNum := (hexValue? dgt).getD 0
  let binary := binaryLoop decNum decNum []
  let binary := if binary = [] then "0000".toList else binary
  (binary.leftpad 4 '0').reverse

def nibbleLoop (jx : List Char) : List Char :=
  jx.reverse.foldl (fun str dgt => str ++ revNibble dgt) []

/-! ### fibdecode -/

/-- The band number printed for bit `ii` by `fibdecode _ tdec mod`. -/
def bandNumber (tdec hun ii : Nat) : Nat :=
  if tdec = 1 then ii + hun
  else if ii < 9 then ii + 501 else ii + 5001

def fibLoop (tdec hun : Nat) (sep : Char) : Nat → List Char → List Char → List Char
  | _, [], lst => lst
  | ii, bnd :: rest, lst =>
      if bnd = '1' then
        let jj := decimal (bandNumber tdec hun ii)
        fibLoop tdec hun sep (ii + 1) rest (if lst = [] then jj else lst ++ sep :: jj)
      else fibLoop tdec hun sep (ii + 1) rest lst

def fibdecode (j : List Char) (tdec mod : Nat) : List Char :=
  let str := nibbleLoop j
  let sep := if mod = 1 then ':' else ','
  let hun := if mod = 1 ∨ mod = 2 then 1 else 101
  let lst := fibLoop tdec hun sep 0 str []
  if lst = [] then ['0'] else lst

/-- `reverse` of mask.sh, returning `revstr`: the bits of the mask after `0x`,
    followed by 94 zeros. -/
def reverse (lx : List Char) : List Char :=
  nibbleLoop (lx.drop 2) ++ replicate 94 '0'

/-! ### The table of `encodemask` as a function of the nibble number -/

/-- The table with `f k` in nibble `k`, counted from the low end. -/
def tableOf (f : Nat → Nat) : List Nat := ((range 72).map f).reverse

/-- What a list of bands adds up to in nibble `k`. -/
def nibbleSum (bands : List Nat) (k : Nat) : Nat :=
  bands.count (4 * k + 1) + 2 * bands.count (4 * k + 2) + 4 * bands.count (4 * k + 3)
    + 8 * bands.count (4 * k + 4)

theorem tableOf_zero : tableOf (fun _ => 0) = replicate 72 0 := by decide

theorem getElem?_tableOf (f : Nat → Nat) {k : Nat} (hk : k < 72) :
    (tableOf f)[71 - k]? = some (f k) := by
  rw [tableOf, getElem?_reverse (by simp; omega)]
  have hidx : (map f (range 72)).length - 1 - (71 - k) = k := by simp; omega
  rw [hidx]
  simp [hk]

theorem tableOf_set (f : Nat → Nat) {k : Nat} (hk : k < 72) (v : Nat) :
    (tableOf f).set (71 - k) v = tableOf (Function.update f k v) := by
  apply ext_getElem
  · simp [tableOf]
  · intro i h1 h2
    simp only [tableOf, length_set, length_reverse, length_map, length_range] at h1
    by_cases hik : 71 - k = i
    · have hi : 71 - i = k := by omega
      simp [tableOf, hik, hi]
    · have hi : 71 - i ≠ k := by omega
      simp [tableOf, hik, hi]

theorem luaIndex_vtab {i : Nat} (hi : i < 4) : luaIndex vtab (i + 1) = some (2 ^ i) := by
  rcases i with _ | _ | _ | _ | i <;> first | rfl | omega

theorem addBand_tableOf (f : Nat → Nat) {band : Nat} (hpos : 1 ≤ band) (hle : band ≤ 272) :
    addBand (tableOf f) band = some (tableOf (Function.update f ((band - 1) / 4)
      (f ((band - 1) / 4) + 2 ^ ((band - 1) % 4)))) := by
  have hk : (band - 1) / 4 < 72 := by omega
  have hval : band - ((band - 1) / 4 + 1 - 1) * 4
      = (((band - 1) % 4 : Nat) : Int) + 1 := by omega
  have hidx : (73 - (((band : Int) - 1) / 4 + 1) - 1).toNat = 71 - (band - 1) / 4 := by omega
  have hidx1 : 1 ≤ 73 - (((band : Int) - 1) / 4 + 1) := by omega
  have hold : luaIndex (tableOf f) (73 - ((band - 1) / 4 + 1))
      = some (f ((band - 1) / 4)) := by
    rw [luaIndex, if_pos hidx1, hidx, getElem?_tableOf f hk]
  rw [addBand, if_pos hle]
  simp only [hval, luaIndex_vtab (Nat.mod_lt (band - 1) (by decide)), hold, hidx,
    Option.bind_eq_bind, Option.bind_some, tableOf_set f hk]

theorem nibbleSum_cons (band : Nat) (bands : List Nat) (k : Nat) (hpos : 1 ≤ band) :
    nibbleSum (band :: bands) k =
      (if (band - 1) / 4 = k then 2 ^ ((band - 1) % 4) else 0) + nibbleSum bands k := by
  simp only [nibbleSum]
  by_cases hk : (band - 1) / 4 = k
  · have hcases : band = 4 * k + 1 ∨ band = 4 * k + 2 ∨ band = 4 * k + 3 ∨ band = 4 * k + 4 := by
      omega
    rw [if_pos hk]
    rcases hcases with h | h | h | h <;> subst h <;>
      simp <;> omega
  · have h1 : band ≠ 4 * k + 1 := by omega
    have h2 : band ≠ 4 * k + 2 := by omega
    have h3 : band ≠ 4 * k + 3 := by omega
    have h4 : band ≠ 4 * k + 4 := by omega
    simp [hk, h1, h2, h3, h4]

/-- **The table after all arguments.**  Nibble `k` holds the sum of the bits of
    the bands that fall into it. -/
theorem foldlM_addBand (bands : List Nat) (hrange : ∀ b ∈ bands, 1 ≤ b ∧ b ≤ 272) :
    ∀ f : Nat → Nat, bands.foldlM addBand (tableOf f)
      = some (tableOf fun k => f k + nibbleSum bands k) := by
  induction bands with
  | nil => intro f; simp [nibbleSum]
  | cons band bands ih =>
    intro f
    obtain ⟨hpos, hle⟩ := hrange band (by simp)
    rw [foldlM_cons, addBand_tableOf f hpos hle, Option.bind_eq_bind, Option.bind_some,
      ih fun b hb => hrange b (by simp [hb])]
    congr 2
    funext k
    rw [nibbleSum_cons band bands k hpos]
    by_cases hk : (band - 1) / 4 = k
    · subst hk; simp; omega
    · simp [hk, Function.update_of_ne (Ne.symm hk)]

theorem mapM_decimal? (bands : List Nat) : (bands.map decimal).mapM decimal? = some bands := by
  induction bands with
  | nil => rfl
  | cons band bands ih => simp [ih]

/-- **What `encodemask` prints** for bands in its range. -/
theorem encodemask_of_mapM {args : List (List Char)} {bands : List Nat}
    (hargs : args.mapM decimal? = some bands) (hrange : ∀ b ∈ bands, 1 ≤ b ∧ b ≤ 272) :
    encodemask args = (tableOf (nibbleSum bands)).flatMap upperHex := by
  have hfold := foldlM_addBand bands hrange fun _ => 0
  rw [tableOf_zero] at hfold
  simp only [encodemask, hargs, Option.bind_eq_bind, Option.bind_some, hfold, Option.getD_some,
    Nat.zero_add]

theorem encodemask_eq (bands : List Nat) (hrange : ∀ b ∈ bands, 1 ≤ b ∧ b ≤ 272) :
    encodemask (bands.map decimal) = (tableOf (nibbleSum bands)).flatMap upperHex :=
  encodemask_of_mapM (mapM_decimal? bands) hrange

/-! ### From the mask back to the bits -/

def nibbleBits (v : Nat) : List Char :=
  [bitChar (v % 2), bitChar (v / 2 % 2), bitChar (v / 4 % 2), bitChar (v / 8 % 2)]

theorem revNibble_upperHexDigit {v : Nat} (h : v < 16) :
    revNibble (upperHexDigit v) = nibbleBits v := by
  revert v
  decide

theorem nibbleLoop_eq (jx : List Char) : nibbleLoop jx = jx.reverse.flatMap revNibble := by
  rw [nibbleLoop, flatMap_eq_foldl]

theorem nibbleLoop_append (xs ys : List Char) :
    nibbleLoop (xs ++ ys) = nibbleLoop ys ++ nibbleLoop xs := by
  simp only [nibbleLoop_eq, reverse_append, flatMap_append]

theorem nibbleLoop_replicate_zero (z : Nat) :
    nibbleLoop (replicate z '0') = replicate (4 * z) '0' := by
  rw [nibbleLoop_eq, reverse_replicate]
  induction z with
  | zero => rfl
  | succ z ih =>
    have hz : revNibble '0' = replicate 4 '0' := by decide
    rw [replicate_succ, flatMap_cons, ih, hz, replicate_append_replicate]
    congr 1
    omega

theorem nibbleLoop_dropWhile (jx : List Char) :
    nibbleLoop jx = nibbleLoop (jx.dropWhile (· = '0'))
      ++ replicate (4 * (jx.takeWhile (· = '0')).length) '0' := by
  have hzeros : jx.takeWhile (· = '0')
      = replicate (jx.takeWhile (· = '0')).length '0' := by
    apply eq_replicate_of_mem
    intro c hc
    simpa using mem_takeWhile_imp hc
  conv_lhs => rw [← takeWhile_append_dropWhile (p := fun c => decide (c = '0')) (l := jx)]
  rw [nibbleLoop_append, hzeros, nibbleLoop_replicate_zero]
  simp

theorem nibbleLoop_tableOf (f : Nat → Nat) (hf : ∀ k, f k < 16) :
    nibbleLoop ((tableOf f).flatMap upperHex)
      = (range 72).flatMap fun k => nibbleBits (f k) := by
  have hprint : (tableOf f).flatMap upperHex = (tableOf f).map upperHexDigit := by
    refine flatMap_upperHex fun v hv => ?_
    simp only [tableOf, mem_reverse, mem_map] at hv
    obtain ⟨k, -, rfl⟩ := hv
    exact hf k
  rw [nibbleLoop_eq, hprint, tableOf, map_reverse, reverse_reverse, map_map, flatMap_map]
  exact flatMap_congr fun k _ => revNibble_upperHexDigit (hf k)

def nibbleOf (p : List Char) (k : Nat) : Nat :=
  let bit (i : Nat) : Nat := if p[i]? = some '1' then 1 else 0
  bit (4 * k) + 2 * bit (4 * k + 1) + 4 * bit (4 * k + 2) + 8 * bit (4 * k + 3)

theorem nibbleOf_lt (p : List Char) (k : Nat) : nibbleOf p k < 16 := by
  simp only [nibbleOf]
  split_ifs <;> omega

def IsBits (s : List Char) : Prop := ∀ c ∈ s, c = '0' ∨ c = '1'

instance (s : List Char) : Decidable (IsBits s) := decidableBAll _ s

variable {s : List Char}

theorem nibbleBits_nibbleOf_zero {a b c d : Char} {p : List Char}
    (hp : IsBits (a :: b :: c :: d :: p)) :
    nibbleBits (nibbleOf (a :: b :: c :: d :: p) 0) = [a, b, c, d] := by
  have ha := hp a (by simp)
  have hb := hp b (by simp)
  have hc := hp c (by simp)
  have hd := hp d (by simp)
  rcases ha with rfl | rfl <;> rcases hb with rfl | rfl <;> rcases hc with rfl | rfl <;>
    rcases hd with rfl | rfl <;> simp [nibbleOf, nibbleBits, bitChar]

theorem nibbleOf_succ (a b c d : Char) (p : List Char) (k : Nat) :
    nibbleOf (a :: b :: c :: d :: p) (k + 1) = nibbleOf p k := by
  have h (i : Nat) : (a :: b :: c :: d :: p)[i + 4]? = p[i]? := by simp
  simp only [nibbleOf, Nat.mul_add, h]

/-- Cutting a bit string into nibbles and writing out their bits is the identity. -/
theorem flatMap_nibbleBits (m : Nat) :
    ∀ p : List Char, IsBits p → p.length = 4 * m →
      ((range m).flatMap fun k => nibbleBits (nibbleOf p k)) = p := by
  induction m with
  | zero =>
    intro p _ hlen
    simp [length_eq_zero_iff.mp hlen]
  | succ m ih =>
    intro p hp hlen
    match p, hp, hlen with
    | a :: b :: c :: d :: p, hp, hlen =>
      have htail : IsBits p := fun x hx => hp x (by simp [hx])
      rw [range_succ_eq_map, flatMap_cons, flatMap_map, nibbleBits_nibbleOf_zero hp]
      simp only [nibbleOf_succ, ih p htail (by simp at hlen; omega)]
      rfl

/-! ### The bands of a bit string -/

theorem count_onesFrom (s : List Char) :
    ∀ ii b : Nat, (onesFrom ii s).count b
      = if ii ≤ b ∧ s[b - ii]? = some '1' then 1 else 0 := by
  induction s with
  | nil => intro ii b; simp [onesFrom]
  | cons dgt rest ih =>
    intro ii b
    rcases Nat.lt_trichotomy b ii with hlt | heq | hgt
    · have hii : ¬ ii ≤ b := by omega
      have hsucc : ¬ ii + 1 ≤ b := by omega
      have hne : ii ≠ b := by omega
      by_cases hd : dgt = '1' <;> simp [onesFrom, hd, ih, hii, hsucc, hne]
    · subst heq
      by_cases hd : dgt = '1' <;> simp [onesFrom, hd, ih]
    · have hii : ii ≤ b := by omega
      have hsucc : ii + 1 ≤ b := by omega
      have hne : ii ≠ b := by omega
      have hidx : b - ii = b - (ii + 1) + 1 := by omega
      by_cases hd : dgt = '1' <;> simp [onesFrom, hd, ih, hii, hsucc, hne, hidx]

theorem mem_onesFrom {ii b : Nat} : b ∈ onesFrom ii s ↔ ii ≤ b ∧ s[b - ii]? = some '1' := by
  rw [← count_pos_iff, count_onesFrom]
  split_ifs with h
  · simp [h]
  · simpa using h

theorem onesFrom_sorted (s : List Char) : ∀ ii : Nat, (onesFrom ii s).Pairwise (· < ·) := by
  induction s with
  | nil => intro ii; simp [onesFrom]
  | cons dgt rest ih =>
    intro ii
    by_cases hd : dgt = '1'
    · simp only [onesFrom, if_pos hd, pairwise_cons]
      exact ⟨fun b hb => (mem_onesFrom.mp hb).1, ih (ii + 1)⟩
    · simpa only [onesFrom, if_neg hd] using ih (ii + 1)

theorem onesFrom_append_zeros (s : List Char) (n ii : Nat) :
    onesFrom ii (s ++ replicate n '0') = onesFrom ii s := by
  induction s generalizing ii with
  | nil =>
    induction n generalizing ii with
    | zero => rfl
    | succ n ih => simpa [onesFrom, replicate_succ] using ih (ii + 1)
  | cons dgt rest ih => simp [onesFrom, ih]

theorem nibbleSum_onesFrom (s : List Char) (k : Nat) :
    nibbleSum (onesFrom 1 s) k = nibbleOf s k := by
  simp [nibbleSum, nibbleOf, count_onesFrom]

theorem nibbleOf_append_zeros (s : List Char) (n k : Nat) :
    nibbleOf (s ++ replicate n '0') k = nibbleOf s k := by
  rw [← nibbleSum_onesFrom, ← nibbleSum_onesFrom, onesFrom_append_zeros]

theorem onesFrom_range (hlen : s.length ≤ 272) : ∀ b ∈ onesFrom 1 s, 1 ≤ b ∧ b ≤ 272 := by
  intro b hb
  obtain ⟨hpos, hget⟩ := mem_onesFrom.mp hb
  have := (List.getElem?_eq_some_iff.mp hget).1
  omega

/-- **The printed mask is exact.**  The bits of the 72 digits printed for the ones
    of `s` are `s` itself, filled up with zeros. -/
theorem nibbleLoop_encodemask (hs : IsBits s) (hlen : s.length ≤ 272) :
    nibbleLoop (encodemask ((onesFrom 1 s).map decimal))
      = s ++ replicate (288 - s.length) '0' := by
  have hpad : IsBits (s ++ replicate (288 - s.length) '0') := by
    intro c hc
    rcases mem_append.mp hc with h | h
    · exact hs c h
    · exact .inl (eq_of_mem_replicate h)
  rw [encodemask_eq _ (onesFrom_range hlen), nibbleLoop_tableOf]
  · have hflat := flatMap_nibbleBits 72 _ hpad (by simp; omega)
    simpa only [nibbleSum_onesFrom, nibbleOf_append_zeros] using hflat
  · intro k
    rw [nibbleSum_onesFrom]
    exact nibbleOf_lt s k

/-- Up to zeros at the end, the bits of the mask made by `encode` are the bits it was made from. -/
theorem nibbleLoop_encode (hs : IsBits s) (hlen : s.length ≤ 272) :
    ∃ m n : Nat, nibbleLoop (encode s) ++ replicate m '0' = s ++ replicate n '0' :=
  ⟨_, _, (nibbleLoop_dropWhile _).symm.trans (nibbleLoop_encodemask hs hlen)⟩

/-! ### Band lists -/

theorem fibLoop_eq (tdec hun : Nat) (sep : Char) (str : List Char) :
    ∀ (ii : Nat) (lst : List Char), lst ≠ [] →
      fibLoop tdec hun sep ii str lst = lst ++
        (onesFrom ii str).flatMap fun i => sep :: decimal (bandNumber tdec hun i) := by
  induction str with
  | nil => intro ii lst _; simp [fibLoop, onesFrom]
  | cons bnd rest ih =>
    intro ii lst hlst
    by_cases hb : bnd = '1'
    · simp only [fibLoop, onesFrom, if_pos hb, if_neg hlst]
      rw [ih (ii + 1) _ (by simp)]
      simp
    · simp only [fibLoop, onesFrom, if_neg hb]
      exact ih (ii + 1) lst hlst

theorem intercalate_cons_flatMap {α : Type} (f : α → List Char) (sep : Char) (a : α) (l : List α) :
    intercalate [sep] ((a :: l).map f) = f a ++ l.flatMap fun b => sep :: f b := by
  induction l generalizing a with
  | nil => simp
  | cons b l ih =>
    rw [map_cons, map_cons, intercalate_cons_cons, ← map_cons, ih]
    simp

/-- **The loop of `fibdecode`** joins the numbers of the ones with the separator. -/
theorem fibLoop_nil (tdec hun : Nat) (sep : Char) (str : List Char) (ii : Nat) :
    fibLoop tdec hun sep ii str [] = intercalate [sep]
      ((onesFrom ii str).map fun i => decimal (bandNumber tdec hun i)) := by
  induction str generalizing ii with
  | nil => rfl
  | cons bnd rest ih =>
    by_cases hb : bnd = '1'
    · simp only [fibLoop, onesFrom, if_pos hb, if_true]
      rw [fibLoop_eq _ _ _ _ _ _ (decimal_ne_nil _), intercalate_cons_flatMap]
    · simp only [fibLoop, onesFrom, if_neg hb]
      exact ih (ii + 1)

theorem onesFrom_shift (s : List Char) (ii d : Nat) :
    onesFrom (ii + d) s = (onesFrom ii s).map (· + d) := by
  induction s generalizing ii with
  | nil => rfl
  | cons dgt rest ih =>
    have hd : ii + d + 1 = ii + 1 + d := by omega
    by_cases hb : dgt = '1' <;> simp [onesFrom, hb, hd, ih]

theorem onesFrom_eq_nil (h : ∀ c ∈ s, c ≠ '1') (ii : Nat) : onesFrom ii s = [] := by
  apply eq_nil_iff_forall_not_mem.mpr
  intro b hb
  exact h '1' (mem_of_getElem? (mem_onesFrom.mp hb).2) rfl

theorem intercalate_decimal_ne_nil (sep : Char) {bands : List Nat} (h : bands ≠ []) :
    intercalate [sep] (bands.map decimal) ≠ [] := by
  match bands, h with
  | b :: bands, _ =>
    rw [intercalate_cons_flatMap]
    simp [decimal_ne_nil]

theorem onesFrom_nibbleLoop_encode (hs : IsBits s) (hlen : s.length ≤ 272) (ii : Nat) :
    onesFrom ii (nibbleLoop (encode s)) = onesFrom ii s := by
  obtain ⟨m, n, heq⟩ := nibbleLoop_encode hs hlen
  rw [← onesFrom_append_zeros _ m, heq, onesFrom_append_zeros]

theorem fibdecode_encode (hs : IsBits s) (hlen : s.length ≤ 272) (hone : '1' ∈ s) (tdec mod : Nat) :
    fibdecode (encode s) tdec mod = intercalate [if mod = 1 then ':' else ',']
      ((onesFrom 0 s).map fun i =>
        decimal (bandNumber tdec (if mod = 1 ∨ mod = 2 then 1 else 101) i)) := by
  have hne : onesFrom 0 s ≠ [] := by
    obtain ⟨i, hi⟩ := getElem?_of_mem hone
    exact ne_nil_of_mem (mem_onesFrom.mpr ⟨Nat.zero_le i, by simpa using hi⟩)
  simp only [fibdecode, fibLoop_nil, onesFrom_nibbleLoop_encode hs hlen]
  refine if_neg ?_
  have hjoin := intercalate_decimal_ne_nil (if mod = 1 then ':' else ',')
    (mt map_eq_nil_iff.mp hne :
      (onesFrom 0 s).map (bandNumber tdec (if mod = 1 ∨ mod = 2 then 1 else 101)) ≠ [])
  simpa [Function.comp_def] using hjoin

theorem getD_append_zeros (l : List Char) (k i : Nat) :
    (l ++ replicate k '0')[i]?.getD '0' = l[i]?.getD '0' := by
  rw [getElem?_append]
  split_ifs with h
  · rfl
  · rw [getElem?_eq_none (Nat.le_of_not_lt h), getElem?_replicate]
    split_ifs <;> rfl

theorem encode_eq_nil (h : '1' ∉ s) : encode s = [] := by
  have hnone : onesFrom 1 s = [] :=
    onesFrom_eq_nil (fun c hc heq => h (heq ▸ hc)) 1
  rw [encode, hnone]
  decide

/-- **Band-lock codec round trip.**  For every bit string of at most 272 places,
    the band list of its mask names the places of the ones, in increasing order,
    and the bit string of its mask has the same bit at every place. -/
theorem encode_round_trip (s : List Char) (hs : IsBits s) (hlen : s.length ≤ 272) :
    ('1' ∉ s → encode s = []) ∧
    ('1' ∈ s → ∃ bands : List Nat,
      fibdecode (encode s) 1 1 = intercalate [':'] (bands.map decimal) ∧
      bands.Pairwise (· < ·) ∧ ∀ b, b ∈ bands ↔ 1 ≤ b ∧ s[b - 1]? = some '1') ∧
    IsBits (reverse ("0x".toList ++ encode s)) ∧
    ∀ i : Nat, (reverse ("0x".toList ++ encode s))[i]?.getD '0' = s[i]?.getD '0' := by
  have hdrop : ("0x".toList ++ encode s).drop 2 = encode s := rfl
  obtain ⟨m, n, heq⟩ := nibbleLoop_encode hs hlen
  refine ⟨encode_eq_nil, fun hone => ⟨onesFrom 1 s, ?_, onesFrom_sorted s 1, ?_⟩, ?_, ?_⟩
  · rw [fibdecode_encode hs hlen hone, onesFrom_shift s 0 1, map_map]
    rfl
  · intro b
    exact mem_onesFrom
  · -- every character stands in the padded selection or is one of the added zeros
    intro c hc
    rcases mem_append.mp hc with h | h
    · have hmem : c ∈ s ++ replicate n '0' := heq ▸ mem_append_left _ h
      rcases mem_append.mp hmem with h' | h'
      · exact hs c h'
      · exact .inl (eq_of_mem_replicate h')
    · exact .inl (eq_of_mem_replicate h)
  · intro i
    rw [reverse, hdrop, getD_append_zeros, ← getD_append_zeros _ m, heq, getD_append_zeros]

theorem encode_round_trip_two_bands :
    IsBits "01010".toList ∧ ("01010".toList).length ≤ 272 ∧
      reverse ("0x".toList ++ encode "01010".toList) = "0101".toList ++ replicate 94 '0' ∧
      ∀ i : Nat, (reverse ("0x".toList ++ encode "01010".toList))[i]?.getD '0'
        = ("01010".toList)[i]?.getD '0' := by
  have hbits : IsBits "01010".toList := by decide
  exact ⟨hbits, by decide, by decide +kernel,
    (encode_round_trip "01010".toList hbits (by decide)).2.2.2⟩

end Rooter.BandMask
