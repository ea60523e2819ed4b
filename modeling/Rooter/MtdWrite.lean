import Rooter.Jffs2
import Rooter.PaddedBlocks

/-!
# Writing an image to flash

Model of `mtd_write` in `mtd.c`, the loop behind `mtd write`.

The state has the variables of the loop: the bytes written (`w`), erased (`e`), skipped as bad
(`skip_bad_blocks`) and to be dropped (`skip`), the buffer and the file descriptor.  When an erase
fails and another device is named behind a colon, the loop goes on there (`resume`); `w` and `e`
start again from zero, the other variables keep their values.

One step is one repetition of the outer loop.  The results of `read` on the image come as a
list, behind which is the end of the file.  A read delivers no more than the buffer takes, the
rest of a piece is left for the next one.

When the configuration has replaced a part of an image with a checksum in its header, the
header is repaired in the end.  The new header is a parameter; where it is written is not.

The devices can be opened (`mtd_check`).  The recovery flag of `-t` and FIS tables are not
modelled.
-/

namespace Rooter.Mtd

open Flash Loop Jffs2

/-! ### Reading the image -/

/-- A result of `read`.  `again` is `EINTR` or `EAGAIN`; data of length zero is the end of
    the file. -/
inductive ReadResult where
  | data (bytes : List UInt8)
  | again
  | failed
deriving DecidableEq, Repr

/-- What the last `read` told, the sign of `r`. -/
inductive LastRead where
  | data
  | ended
  | failed
deriving DecidableEq, Repr

def fill (erasesize : Nat) :
    LastRead → List UInt8 → List ReadResult → LastRead × List UInt8 × List ReadResult
  | r, buf, [] => (if buf.length < erasesize then .ended else r, buf, [])
  | r, buf, result :: input =>
      if buf.length < erasesize then
        match result with
        | .again => fill erasesize r buf input
        | .failed => (.failed, buf, input)
        | .data bytes =>
            let room := erasesize - buf.length
            if bytes = [] then (.ended, buf, input)
            else if bytes.length ≤ room then fill erasesize .data (buf ++ bytes) input
            else (.data, buf ++ bytes.take room, .data (bytes.drop room) :: input)
      else (r, buf, result :: input)

/-- The block is filled up with `0xff`. -/
def padBlock (erasesize : Nat) (buf : List UInt8) : List UInt8 := buf.rightpad erasesize 0xff

/-! ### The state -/

/-- What `image_check` has found at the beginning of the image. -/
inductive ImageFormat where
  | unknown
  | trx
  | seama
  | wrg
  | wrgg03
deriving DecidableEq, Repr

/-- What a repair makes of the contents of the device: nothing is written, the program
    gives up, or a new header is written. -/
inductive Repair where
  | keep
  | exit
  | rewrite (header : List UInt8)

/-- The options of the command line and the machine.  `behind` is the memory behind the buffer,
    `repair` stands for `trx_fixup`, `mtd_fixseama`, `mtd_fixwrg` and `mtd_fixwrgg`. -/
structure Options where
  noErase : Bool
  jffs2SkipBytes : Int
  partOffset : Nat
  bigEndian : Bool
  behind : Nat → UInt8
  imageformat : ImageFormat
  repair : ImageFormat → Device → Repair

def plainOptions : Options :=
  ⟨false, 0, 0, false, fun _ => 0x55, .unknown, fun _ _ => .keep⟩

/-- `closed` are the descriptors of the devices that were left, `next` the devices that follow.
    `buflenRaw` is the number of bytes in the buffer before the padding.  `padded` is not in the
    program: for each block that was written with padding it records what the last read had told. -/
structure Writer where
  fd : Descriptor
  closed : List Descriptor
  next : List Device
  w : Nat
  e : Nat
  skip : Int
  skipBadBlocks : Nat
  offset : Nat
  buf : List UInt8
  buflenRaw : Nat
  r : LastRead
  input : List ReadResult
  jffs2file : Option ConfigFile
  jffs2Replaced : Bool
  last : Numbers
  padded : List LastRead

inductive Status where
  | success
  | exit
  | hang
deriving DecidableEq, Repr

/-- How the run ended, the descriptors of the devices that were opened, and the devices
    that were not. -/
structure Outcome where
  status : Status
  opened : List Descriptor
  unopened : List Device
  padded : List LastRead

def Outcome.devices (r : Outcome) : List Device := r.opened.map (·.dev) ++ r.unopened

def openAt (o : Options) (d : Device) : Descriptor := ⟨d, o.partOffset, []⟩

namespace Writer

variable (o : Options)

def stop (s : Writer) (status : Status) (fd : Descriptor) : Next Writer Outcome :=
  .leave ⟨status, s.closed ++ [fd], s.next, s.padded⟩

/-! ### Erasing -/

structure EraseState where
  fd : Descriptor
  e : Nat
  skipBadBlocks : Nat

def eraseState (s : Writer) : EraseState := ⟨s.fd, s.e, s.skipBadBlocks⟩

inductive EraseResult where
  | ready (t : EraseState)
  | failed (t : EraseState)
  | exit (fd : Descriptor)

/-- One repetition of the erase loop; `limit` is `w + buflen`.  The mark is that of the
    block at `e`, erased is the block at `e + part_offset`, a 32-bit number. -/
def eraseStep (limit : Nat) (t : EraseState) : Next EraseState EraseResult :=
  if t.e < limit + t.skipBadBlocks then
    match t.fd.dev.isBad t.e with
    | none => .leave (.exit t.fd)
    | some true =>
        let erasesize := t.fd.dev.erasesize
        .again ⟨t.fd.seek erasesize, t.e + erasesize, t.skipBadBlocks + erasesize⟩
    | some false =>
        match t.fd.erase ((t.e + o.partOffset) % 2 ^ 32) with
        | (fd, true) => .again { t with fd := fd, e := t.e + fd.dev.erasesize }
        | (fd, false) => .leave (.failed { t with fd := fd })
  else .leave (.ready t)

def eraseBlocks (s : Writer) : Option EraseResult :=
  if o.noErase then some (.ready s.eraseState)
  else
    let limit := s.w + s.buf.length
    loop (eraseStep o limit) (s.fd.dev.size + (limit + s.skipBadBlocks - s.e) + 1) s.eraseState

/-! ### One repetition -/

def resume (s : Writer) (t : EraseState) : Next Writer Outcome :=
  match s.next with
  | [] => s.stop .exit t.fd
  | d :: next =>
      let dirty := s.w < t.e
      let fd :=
        if dirty then (t.fd.write (slice s.buf o.behind s.offset (t.e - s.w))).1 else t.fd
      .again { s with
        fd := openAt o d
        closed := s.closed ++ [fd]
        next := next
        w := 0
        e := 0
        skipBadBlocks := t.skipBadBlocks
        offset := if dirty then t.e - s.w else s.offset }

def writeBlock (s : Writer) (t : EraseState) : Next Writer Outcome :=
  let buflen := s.buf.length
  match t.fd.write (slice s.buf o.behind s.offset buflen) with
  | (fd, none) => s.stop .exit fd
  | (fd, some result) =>
      if result < buflen then s.stop .exit fd
      else .again { s with
        fd := fd
        e := t.e
        skipBadBlocks := t.skipBadBlocks
        w := s.w + buflen
        buf := []
        buflenRaw := 0
        offset := 0
        padded := if s.buflenRaw < buflen then s.padded ++ [s.r] else s.padded }

def place (s : Writer) : Next Writer Outcome :=
  match eraseBlocks o s with
  | none => s.stop .hang s.fd
  | some (.exit fd) => s.stop .exit fd
  | some (.failed t) => resume o s t
  | some (.ready t) => writeBlock o s t

/-- The end marker was found: the configuration is written in its place. -/
def replaceJffs2 (s : Writer) (file : ConfigFile) : Next Writer Outcome :=
  match configBlocks s.fd.dev.erasesize o.bigEndian file s.last with
  | none => s.stop .hang s.fd
  | some blocks =>
      match putBlocks s.fd s.e blocks with
      | .error fd => s.stop .exit fd
      | .ok (fd, mtdofs) =>
          .again { s with
            fd := fd
            jffs2file := none
            jffs2Replaced := true
            w := s.w + (mtdofs - s.e)
            e := mtdofs
            skip := (mtdofs - s.e : Nat) - (s.buf.length : Int)
            buf := []
            buflenRaw := 0
            offset := 0 }

def handle (s : Writer) : Next Writer Outcome :=
  if 0 < s.skip then .again { s with skip := s.skip - s.buf.length, buf := [], buflenRaw := 0 }
  else
    match s.jffs2file with
    | none => place o s
    | some file =>
        if o.jffs2SkipBytes ≤ s.w then
          if s.buf.take 4 = eofMarker then replaceJffs2 o s file
          else
            match parseJffs2data o.bigEndian s.buf o.behind s.last with
            | none => s.stop .hang s.fd
            | some last => place o { s with last := last }
        else place o s

/-- The repair of the header: the device is opened again, and its first block erased and written.
    `trx_fixup` writes through a mapping and does not look at the result. -/
def fixHeader (fd : Descriptor) : Status × Descriptor :=
  let failure : Status := if o.imageformat = .trx then .success else .exit
  match o.repair o.imageformat fd.dev with
  | .keep => (.success, fd)
  | .exit => (.exit, fd)
  | .rewrite header =>
      let block := (header ++ (fd.dev.block 0).drop header.length).take fd.dev.erasesize
      match ({ fd with pos := 0 } : Descriptor).erase 0 with
      | (fd, false) => (failure, fd)
      | (fd, true) =>
          match fd.write block with
          | (fd, none) => (failure, fd)
          | (fd, some result) => (if result < block.length then failure else .success, fd)

def finish (s : Writer) : Next Writer Outcome :=
  if s.jffs2Replaced ∧ o.imageformat ≠ .unknown then
    s.stop (fixHeader o s.fd).1 (fixHeader o s.fd).2
  else s.stop .success s.fd

def step (s : Writer) : Next Writer Outcome :=
  let erasesize := s.fd.dev.erasesize
  match fill erasesize s.r s.buf s.input with
  | (r, buf, input) =>
      if buf = [] then finish o s
      else
        handle o { s with
          r := r
          buf := padBlock erasesize buf
          buflenRaw := if s.buflenRaw = 0 then buf.length else s.buflenRaw
          input := input }

end Writer

def delivered (input : List ReadResult) : List UInt8 :=
  input.flatMap fun
    | .data bytes => bytes
    | _ => []

/-- `buf` is what the check of the image has read before. -/
def start (o : Options) (file : Option ConfigFile) (d : Device) (next : List Device)
    (buf : List UInt8) (input : List ReadResult) : Writer where
  fd := openAt o d
  closed := []
  next := next
  w := 0
  e := 0
  skip := 0
  skipBadBlocks := 0
  offset := 0
  buf := buf
  buflenRaw := 0
  r := .ended
  input := input
  jffs2file := file
  jffs2Replaced := false
  last := ⟨0, 0⟩
  padded := []

/-- `mtd_write`.  Each repetition takes a byte of the image, the buffer or a device. -/
def mtdWrite (o : Options) (file : Option ConfigFile) (d : Device) (next : List Device)
    (buf : List UInt8) (input : List ReadResult) : Option Outcome :=
  loop (Writer.step o) ((delivered input).length + next.length + 2) (start o file d next buf input)

end Rooter.Mtd
