import Rooter.Execution
import Rooter.Fields
import Rooter.Numeral

/-!
# Adding users and groups

Model of `group_add`, `group_add_next`, `group_add_user` and `user_add` of `functions.sh`, run
by any number of processes on the same files.  A position of a process is the command it is
about to run; each command is one step, but for `sed -i`, which reads the file in one step and
replaces it in another.  In an installation root no locks are taken.

Names and lines have no characters that are special to `grep` and `sed`.
-/

namespace Rooter.Accounts

open Fields Numeral Function

abbrev Text := List Char

abbrev Pid := Nat

def nameChar (c : Char) : Bool := c.isAlphanum || c == '_' || c == '-'

@[ext]
structure Name where
  text : Text
  proper : text ≠ [] ∧ text.all nameChar = true
  deriving DecidableEq

structure Id where
  text : Text
  proper : text ≠ [] ∧ text.all Char.isDigit = true
  deriving DecidableEq

/-- What is made: a group, or a user with a group id, a description, a home and a shell, each
    of which may be missing. -/
inductive Job where
  | group (name : Name)
  | user (name : Name) (gid : Option Id) (desc home shell : Text)
  deriving DecidableEq

/-- `/etc/group` and `/etc/passwd`, and the locks named after them. -/
inductive File where
  | group
  | passwd
  deriving DecidableEq

def Job.file : Job → File
  | .group _ => .group
  | .user .. => .passwd

def Job.name : Job → Name
  | .group name => name
  | .user name .. => name

def Job.line (id : Text) : Job → Text
  | .group name => name.text ++ ':' :: ('x' :: ':' :: (id ++ [':']))
  | .user name gid desc home shell =>
    let gid := gid.elim id Id.text
    let desc := if desc = [] then name.text else desc
    let home := if home = [] then "/var/run/".toList ++ name.text
      else home
    let shell := if shell = [] then "/bin/false".toList else shell
    name.text ++ ':' :: ('x' :: ':' :: (id ++ ':' :: (gid ++ ':' :: (desc ++ ':' ::
      (home ++ ':' :: shell)))))

def shadowLine (name : Name) : Text :=
  name.text ++ ":x:0:0:99999:7:::".toList

/-- `cut -d: -f<n>` for a line: one without a colon is printed as it is. -/
def cut (n : Nat) (line : Text) : Text := if ':' ∈ line then field ':' (n - 1) line else line

/-- `grep "^<name>:"`. -/
def grepName (name : Name) (lines : List Text) : List Text :=
  lines.filter fun line => (name.text ++ [':']).isPrefixOf line

/-- `cut -d: -f4 | grep -q <user>` for the lines of a group. -/
def hasMember (user : Name) (lines : List Text) : Bool :=
  lines.any fun line => (cut 4 line).tails.any user.text.isPrefixOf

/-- Nothing if a line ends with a colon, which `grep -q ":$"` looks for, otherwise a comma. -/
def delim (lines : List Text) : Text :=
  if lines.any fun line => line.getLast? = some ':' then [] else [',']

/-- The position of a process.  A number `seen` says how many entries had been made when the
    file was read; it is not there for an id that was given. -/
inductive Pc where
  | idle
  | find (name : Name)                                  -- `gid=$(grep ... | cut ...)`
  | cut (job : Job)                                     -- `ids=$(cut -d: -f3 ...)`
  | choose (job : Job) (ids : List Text) (n seen : Nat) -- `while ... grep -q "^$id$"`
  | test (job : Job) (id : Text) (seen : Option Nat)    -- `[ -f ... ] || return 1`
  | lock (job : Job) (id : Text) (seen : Option Nat)
  | append (job : Job) (id : Text) (seen : Option Nat)  -- `echo ... >>`
  | shadow (name : Name)                                -- `echo ... >> shadow`
  | unlock (f : File)
  | grep (group user : Name)                            -- `grp=$(grep ...)`
  | member (lines : List Text) (user : Name)            -- the tests of `$grp`
  | lockSed (lines : List Text) (user : Name)
  | sed (lines : List Text) (user : Name)               -- `sed -i` before it reads
  | replace (content : List Text) (seen : Nat)          -- and before it replaces
  deriving DecidableEq

/-- An entry that was made: `auto` if its id was not given. -/
structure Created where
  name : Name
  id : Text
  auto : Bool
  deriving DecidableEq

/-- A file that is missing is `none`.  `created` lists the entries that were made. -/
structure State where
  file : File → Option (List Text)
  shadow : List Text
  lock : File → Option Pid
  pc : Pid → Pc
  created : File → List Created

namespace State

variable (s : State)

def goto (p : Pid) (pc : Pc) : State := { s with pc := update s.pc p pc }

def lines (f : File) : List Text := (s.file f).getD []

/-- `[ -n "$IPKG_INSTROOT" ] || lock ...`. -/
def acquire (inst : Bool) (f : File) (p : Pid) : Option State :=
  if inst then some s
  else if s.lock f = none then some { s with lock := update s.lock f (some p) }
  else none

/-- `[ -n "$IPKG_INSTROOT" ] || lock -u ...`. -/
def release (inst : Bool) (f : File) : State :=
  if inst then s else { s with lock := update s.lock f none }

def append (job : Job) (id : Text) (auto : Bool) : State :=
  { s with
    file := update s.file job.file (some (s.lines job.file ++ [job.line id]))
    created := update s.created job.file
      (s.created job.file ++ [⟨job.name, id, auto⟩]) }

end State

def Job.after : Job → Pc
  | .group _ => .unlock .group
  | .user name .. => .shadow name

def next (inst : Bool) (s : State) (p : Pid) : Option State :=
  match s.pc p with
  | .idle => none
  | .find name =>
    if (grepName name (s.lines .group)).any fun line => Accounts.cut 3 line ≠ [] then
      some (s.goto p .idle)
    else some (s.goto p (.cut (.group name)))
  | .cut job =>
    some (s.goto p (.choose job ((s.lines job.file).map (Accounts.cut 3)) 65536
      (s.created job.file).length))
  | .choose job ids n seen =>
    if ids.any fun id => id = decimal n then some (s.goto p (.choose job ids (n + 1) seen))
    else some (s.goto p (.test job (decimal n) (some seen)))
  | .test job id seen =>
    if (s.file job.file).isSome then some (s.goto p (.lock job id seen))
    else some (s.goto p .idle)
  | .lock job id seen => (s.acquire inst job.file p).map (·.goto p (.append job id seen))
  | .append job id seen => some ((s.append job id seen.isSome).goto p job.after)
  | .shadow name =>
    some ({ s with shadow := s.shadow ++ [shadowLine name] }.goto p (.unlock .passwd))
  | .unlock f => some ((s.release inst f).goto p .idle)
  | .grep group user => some (s.goto p (.member (grepName group (s.lines .group)) user))
  | .member lines user =>
    if hasMember user lines then some (s.goto p .idle) else some (s.goto p (.lockSed lines user))
  | .lockSed lines user => (s.acquire inst .passwd p).map (·.goto p (.sed lines user))
  | .sed lines user =>
    match s.file .group, lines with
    | some content, [line] =>
      some (s.goto p (.replace (content.map (substitute line (delim lines ++ user.text) 0))
        (s.created .group).length))
    -- no file, an empty pattern or one of several lines: `sed` fails
    | _, _ => some (s.goto p (.unlock .passwd))
  | .replace content _ =>
    some ({ s with file := update s.file .group (some content) }.goto p (.unlock .passwd))

/-! ### The functions -/

def groupAddNext (name : Name) : Pc := .find name

def groupAdd (name : Name) (gid : Id) : Pc := .test (.group name) gid.text none

def groupAddUser (group user : Name) : Pc := .grep group user

def userAdd (name : Name) (uid gid : Option Id) (desc home shell : Text) : Pc :=
  match uid with
  | none => .cut (.user name gid desc home shell)
  | some uid => .test (.user name gid desc home shell) uid.text none

inductive Call where
  | groupAddNext (name : Name)
  | groupAdd (name : Name) (gid : Id)
  | groupAddUser (group user : Name)
  | userAdd (name : Name) (uid gid : Option Id) (desc home shell : Text)
  deriving DecidableEq

def Call.start : Call → Pc
  | .groupAddNext name => Accounts.groupAddNext name
  | .groupAdd name gid => Accounts.groupAdd name gid
  | .groupAddUser group user => Accounts.groupAddUser group user
  | .userAdd name uid gid desc home shell => Accounts.userAdd name uid gid desc home shell

inductive Action where
  | call (p : Pid) (c : Call)
  | run (p : Pid)
  deriving DecidableEq

def step (inst : Bool) (s : State) : Action → Option State
  | .call p c => if s.pc p = .idle then some (s.goto p c.start) else none
  | .run p => next inst s p

/-! ### What is asked of it -/

def key (line : Text) : Text × Text := (cut 1 line, cut 3 line)

def Created.key (c : Created) : Text × Text := (c.name.text, c.id)

/-- Every user and group that was made is there, and no two that were made without an id have
    the same one. -/
structure Safe (s : State) : Prop where
  present : ∀ f, ∀ c ∈ s.created f, c.key ∈ (s.lines f).map key
  distinct : ∀ f, (((s.created f).filter Created.auto).map Created.id).Nodup

/-- Nothing has been made yet, and the lines of the group file have four fields.  As all lines,
    they have no characters that are special to `grep` and `sed`. -/
structure Initial (s : State) : Prop where
  idle : ∀ p, s.pc p = .idle
  free : ∀ f, s.lock f = none
  nothing : ∀ f, s.created f = []
  fields : ∀ line ∈ s.lines .group, line.count ':' = 3

def NewNames (s₀ s : State) : Prop :=
  ((s.created .group).map Created.name).Nodup ∧
    ∀ c ∈ s.created .group, c.name.text ∉ (s₀.lines .group).map (cut 1)

/-- An id that a process has chosen has not been taken by another one since it read the file,
    and `sed -i` replaces the group file by one that has all groups. -/
def Pc.Harmless (s : State) : Pc → Prop
  | .append job id (some seen) =>
    ∀ c ∈ (s.created job.file).drop seen, c.auto = true → c.id ≠ id
  | .replace _ seen => (s.created .group).length = seen
  | _ => True

def Harmless (s : State) : Action → Prop
  | .call _ _ => True
  | .run p => (s.pc p).Harmless s

end Rooter.Accounts
