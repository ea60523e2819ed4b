import Rooter.BitField
import Rooter.Memory

/-!
# `mapcalc.c`

The calculator of the parameters of a MAP or lightweight 4over6 rule: it finds the delegated
prefix, takes the suffix of the IPv4 address and the port set identifier out of it, and prints
the addresses and the port ranges.  An address is a memory of octets.  A text is already split
into options, and a number is what `strtoul` gives as an `int`.  `none` stands for an access
outside of an object.
-/

namespace Rooter.Mapcalc

open BitField Memory

/-! ### Bits in memory -/

abbrev Octets := Nat → UInt8

/-- `IN6ADDR_ANY_INIT`, `INADDR_ANY` and a buffer that is zero -/
def zeros : Octets := fun _ => 0

/-- Whether `bmemcmp(av, bv, bits)` is zero -/
def bmemcmp (a b : Octets) (bits : Nat) : Bool :=
  (List.range (bits / 8)).all (fun k => a k == b k) &&
    (bits % 8 == 0 ||
      a (bits / 8) >>> UInt8.ofNat (8 - bits % 8) == b (bits / 8) >>> UInt8.ofNat (8 - bits % 8))

def bmemcpy (a b : Octets) (bits : Nat) : Octets := fun k =>
  let mask : UInt8 := 1 <<< UInt8.ofNat (8 - bits % 8) - 1
  if k < bits / 8 then b k
  else if k = bits / 8 ∧ 0 < bits % 8 then a k &&& mask ||| ~~~mask &&& b k
  else a k

/-- `bmemcpys64(av, bv, frombits, nbits)` where `av` has `size` octets and `bv` has `length`. -/
def bmemcpys64 (length size : Nat) (a b : Octets) (frombits nbits : Nat) : Option Octets :=
  let frombyte := frombits / 8
  let tobyte := (frombits + nbits) / 8
  if 8 < tobyte - frombyte + 1 ∨ length ≤ tobyte ∨ 8 * size < nbits then none
  else
    let buf := store zeros 0 (load b frombyte (tobyte - frombyte + 1))
    let buf := octets 8 (field buf 0 64 <<< (frombits % 8) % 2 ^ 64)
    some (bmemcpy a buf nbits)

/-! ### The options of a rule -/

inductive RuleOption where
  | type (value : Option (List Char))
  | fmr
  | ealen (intval : Option Int)
  | prefix4len (intval : Option Int)
  | prefix6len (intval : Option Int)
  | ipv4Prefix (addr : Option Octets)
  | ipv6Prefix (addr : Option Octets)
  | pd (addr : Option Octets)
  | offset (intval : Option Int)
  | psidlen (intval : Option Int)
  | pdlen (intval : Option Int)
  | psid (intval : Option Int)
  | dmr (value : Option (List Char))
  | br (value : Option (List Char))
  | invalid

structure Rule where
  lw4o6 : Bool := false
  fmr : Bool := false
  ealen : Int := -1
  prefix4len : Int := 32
  prefix6len : Int := -1
  pdlen : Int := -1
  ipv4Prefix : Octets := zeros
  ipv6Prefix : Octets := zeros
  pd : Octets := zeros
  offset : Int := -1
  psidlen : Int := -1
  psid : Int := -1
  dmr : Option (List Char) := none
  br : Option (List Char) := none

/-- `(intval = strtoul(value, NULL, 0)) <= limit && !errno`; else the option is skipped. -/
def upTo (limit : Int) (intval : Option Int) (old : Int) : Int :=
  match intval with
  | some v => if v ≤ limit then v else old
  | none => old

def Rule.set (r : Rule) : RuleOption → Rule
  | .type value => { r with lw4o6 := value == some "lw4o6".toList }
  | .fmr => { r with fmr := true }
  | .ealen v => { r with ealen := upTo 48 v r.ealen }
  | .prefix4len v => { r with prefix4len := upTo 32 v r.prefix4len }
  | .prefix6len v => { r with prefix6len := upTo 128 v r.prefix6len }
  | .ipv4Prefix addr => { r with ipv4Prefix := addr.getD r.ipv4Prefix }
  | .ipv6Prefix addr => { r with ipv6Prefix := addr.getD r.ipv6Prefix }
  | .pd addr => { r with pd := addr.getD r.pd }
  | .offset v => { r with offset := upTo 16 v r.offset }
  | .psidlen v => { r with psidlen := upTo 16 v r.psidlen }
  | .pdlen v => { r with pdlen := upTo 128 v r.pdlen }
  | .psid v => { r with psid := upTo 65535 v r.psid }
  | .dmr value => { r with dmr := value }
  | .br value => { r with br := value }
  | .invalid => r

def Rule.parse (options : List RuleOption) : Rule := options.foldl Rule.set {}

/-! ### The delegated prefix -/

/-- An entry of `ipv6-prefix` or `ipv6-address`; the address is zero if the text is not one. -/
structure PrefixAttr where
  address : Option Octets
  mask : Option Int

structure Interface where
  interface : Option (List Char)
  ipv6Prefix : List PrefixAttr
  ipv6Address : List PrefixAttr

/-- The body of the loop of `match_prefix`; a negative length is converted to a huge `size_t`. -/
def matchEntry (r : Rule) (found : Int × Octets) (d : PrefixAttr) : Option (Int × Octets) :=
  match d.address, d.mask with
  | some address, some mask =>
      let mask := if r.lw4o6 ∧ mask = 128 then 64 else mask
      if found.1 < mask ∧ r.prefix6len ≤ mask then
        if r.prefix6len < 0 then none
        else if bmemcmp address r.ipv6Prefix r.prefix6len.toNat then
          if 128 < mask then none else some (mask, bmemcpy found.2 address mask.toNat)
        else some found
      else if r.lw4o6 ∧ found.1 < r.prefix6len ∧ mask < r.prefix6len then
        if mask < 0 then none
        else if bmemcmp address r.ipv6Prefix mask.toNat then
          some (r.prefix6len, bmemcpy found.2 r.ipv6Prefix r.prefix6len.toNat)
        else some found
      else some found
  | _, _ => some found

def matchPrefix (r : Rule) (found : Int × Octets) (cur : List PrefixAttr) : Option (Int × Octets) :=
  cur.foldlM (matchEntry r) found

/-- The loop over the interfaces: `pdlen`, `pd` and `iface`. -/
def findInDump (r : Rule) (arg : List Char) : List Interface → Int × Octets →
    Option (Int × Octets × List Char)
  | [], found => some (found.1, found.2, arg)
  | c :: rest, found =>
      match c.interface with
      | none => findInDump r arg rest found
      | some name =>
          if arg ≠ "*".toList ∧ arg ≠ name then findInDump r arg rest found
          else do
            let found ← matchPrefix r found c.ipv6Prefix
            let found ← if r.lw4o6 then matchPrefix r found c.ipv6Address else some found
            if 0 ≤ found.1 then some (found.1, found.2, name) else findInDump r arg rest found

def findPd (r : Rule) (arg : List Char) (dump : List Interface) :
    Option (Int × Octets × List Char) :=
  if r.pdlen < 0 then findInDump r arg dump (r.pdlen, r.pd) else some (r.pdlen, r.pd, arg)

/-! ### Lengths -/

def offsetOf (r : Rule) (legacy : Bool) : Int :=
  if r.offset < 0 then if r.lw4o6 then 0 else if legacy then 4 else 6 else r.offset

/-- `psidlen` behind the lines for lightweight 4over6. -/
def givenPsidlen (r : Rule) : Int := if r.lw4o6 ∧ r.psidlen < 0 then 0 else r.psidlen

def ealenOf (r : Rule) (pdlen : Int) : Int :=
  let ealen := if r.lw4o6 then givenPsidlen r else r.ealen
  if ealen < 0 ∧ 0 ≤ pdlen then pdlen - r.prefix6len else ealen

def psidlenOf (r : Rule) (pdlen : Int) : Int :=
  if givenPsidlen r ≤ 0 then max 0 (ealenOf r pdlen - (32 - r.prefix4len)) else givenPsidlen r

/-- `psid` as far as the options give it. -/
def givenPsid (r : Rule) : Int := if givenPsidlen r ≤ 0 then -1 else r.psid

/-- `Skipping invalid or incomplete rule` -/
def Incomplete (r : Rule) (pdlen : Int) : Prop :=
  r.prefix4len < 0 ∨ r.prefix6len < 0 ∨ ealenOf r pdlen < 0 ∨ 16 < psidlenOf r pdlen ∨
    ealenOf r pdlen < psidlenOf r pdlen

instance (r : Rule) (pdlen : Int) : Decidable (Incomplete r pdlen) :=
  inferInstanceAs (Decidable (_ ∨ _ ∨ _ ∨ _ ∨ _))

/-! ### Addresses and port sets -/

/-- `psid` and `psid16` behind the first lines about them. -/
def readPsid (r : Rule) (pdlen : Int) (pd : Octets) : Option (Int × Octets) :=
  if givenPsid r < 0 ∧ 0 ≤ psidlenOf r pdlen ∧ 0 ≤ pdlen then do
    let psid16 ← bmemcpys64 16 2 zeros pd
      (r.prefix6len + ealenOf r pdlen - psidlenOf r pdlen).toNat (psidlenOf r pdlen).toNat
    some (field psid16 0 16, psid16)
  else some (givenPsid r, zeros)

/-- The shift to the right for `psid16` and back for the port sets. -/
def alignPsid (psidlen : Int) : Int × Octets → Int × Octets
  | (psid, psid16) =>
      if 0 < psidlen then
        let psid := psid >>> (16 - psidlen).toNat
        (psid * 2 ^ (16 - psidlen).toNat, octets 2 (psid % 65536).toNat)
      else (psid, psid16)

def readIpv4 (r : Rule) (pdlen : Int) (pd : Octets) : Option (Octets × Int) :=
  let ealen := ealenOf r pdlen
  if 0 ≤ pdlen ∨ ealen = psidlenOf r pdlen then do
    let ipv4addr ← bmemcpys64 16 4 zeros pd r.prefix6len.toNat (ealen - psidlenOf r pdlen).toNat
    -- at 32 the shift is undefined, and its result is overwritten
    let ipv4addr := octets 4 (field ipv4addr 0 32 >>> r.prefix4len.toNat)
    some (bmemcpy ipv4addr r.ipv4Prefix r.prefix4len.toNat,
      if r.prefix4len + ealen < 32 then r.prefix4len + ealen else 32)
  else some (zeros, 32)

def formIpv6 (legacy : Bool) (ipv4addr psid16 pd : Octets) (pdlen : Int) : Octets :=
  if 0 ≤ pdlen then
    let v4offset := if legacy then 9 else 10
    let addr := store zeros v4offset (load ipv4addr 0 4)
    bmemcpy (store addr (v4offset + 4) (load psid16 0 2)) pd pdlen.toNat
  else zeros

/-- The range from `start` on, if it is printed; port 0 is left out. -/
def portRange (start size : Nat) : Option (Nat × Nat) :=
  let stop := start + size - 1
  let start := if start = 0 then 1 else start
  if start ≤ stop then some (start, stop) else none

def portsets (offset psidlen psid : Nat) : List (Nat × Nat) :=
  let first := if offset = 0 then 0 else 1
  (List.range' first (2 ^ offset - first)).filterMap fun k =>
    portRange (k <<< (16 - offset) ||| psid >>> offset) (2 ^ (16 - offset - psidlen))

structure Result where
  rule : Rule
  ealen : Int
  psidlen : Int
  offset : Int
  pd : Octets
  pdlen : Int
  iface : List Char
  ipv4addr : Octets
  addr4len : Int
  ipv6addr : Octets
  psid16 : Octets
  psid : Int

/-- The line `PORTSETS`, if it is printed. -/
def Result.ports (res : Result) : Option (List (Nat × Nat)) :=
  if 0 < res.psidlen ∧ 0 ≤ res.psid then
    some (portsets res.offset.toNat res.psidlen.toNat res.psid.toNat)
  else none

inductive Outcome where
  | skipped
  | printed (res : Result)

/-- What is printed for a rule, from `psid`, `psid16`, `ipv4addr` and `addr4len`. -/
def Rule.report (r : Rule) (legacy : Bool) (pdlen : Int) (pd : Octets) (iface : List Char)
    (psid : Int × Octets) (ipv4 : Octets × Int) : Result where
  rule := r
  ealen := ealenOf r pdlen
  psidlen := psidlenOf r pdlen
  offset := offsetOf r legacy
  pd := pd
  pdlen := pdlen
  iface := iface
  ipv4addr := ipv4.1
  addr4len := ipv4.2
  ipv6addr := formIpv6 legacy ipv4.1 psid.2 pd pdlen
  psid16 := psid.2
  psid := psid.1

def Rule.calculate (r : Rule) (legacy : Bool) (arg : List Char) (dump : List Interface) :
    Option Outcome := do
  let (pdlen, pd, iface) ← findPd r arg dump
  if Incomplete r pdlen then some .skipped
  else
    let psid ← readPsid r pdlen pd
    let ipv4 ← readIpv4 r pdlen pd
    if pdlen < 0 ∧ ¬ r.fmr then some .skipped
    else some (.printed
      (r.report legacy pdlen pd iface (alignPsid (psidlenOf r pdlen) psid) ipv4))

end Rooter.Mapcalc
