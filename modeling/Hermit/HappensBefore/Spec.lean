import Hermit.Common.DepthFirst
import Hermit.Schedule.Event

/-!
# Happens-before specifications

`HappensBeforeSpec` of `detcore-model/src/happens_before.rs`, and its normalization into
a `HappensBeforeProgram`: a table of anchors and a list of edges between them.

The lookup `adj[node]` of `detect_cycle` panics where a node has no entry, and its loops
are given fuel here. Both are outcomes of `normalize` beside the errors of the source
(`Failure`). The names of system calls are resolved by a function that is not part of
the repository (`sysnoFromStr`).
-/

namespace Hermit

/-! ## System calls -/

namespace Sysno

def read : Sysno := ⟨0⟩
def write : Sysno := ⟨1⟩
def close : Sysno := ⟨3⟩
def fstat : Sysno := ⟨5⟩
def lseek : Sysno := ⟨8⟩
def rt_sigreturn : Sysno := ⟨15⟩
def ioctl : Sysno := ⟨16⟩
def pread64 : Sysno := ⟨17⟩
def pwrite64 : Sysno := ⟨18⟩
def readv : Sysno := ⟨19⟩
def writev : Sysno := ⟨20⟩
def dup : Sysno := ⟨32⟩
def dup2 : Sysno := ⟨33⟩
def connect : Sysno := ⟨42⟩
def accept : Sysno := ⟨43⟩
def sendto : Sysno := ⟨44⟩
def recvfrom : Sysno := ⟨45⟩
def sendmsg : Sysno := ⟨46⟩
def recvmsg : Sysno := ⟨47⟩
def shutdown : Sysno := ⟨48⟩
def bind : Sysno := ⟨49⟩
def listen : Sysno := ⟨50⟩
def execve : Sysno := ⟨59⟩
def fcntl : Sysno := ⟨72⟩
def flock : Sysno := ⟨73⟩
def fsync : Sysno := ⟨74⟩
def fdatasync : Sysno := ⟨75⟩
def ftruncate : Sysno := ⟨77⟩
def futex : Sysno := ⟨202⟩
def getdents64 : Sysno := ⟨217⟩
def epoll_wait : Sysno := ⟨232⟩
def epoll_ctl : Sysno := ⟨233⟩
def epoll_pwait : Sysno := ⟨281⟩
def fallocate : Sysno := ⟨285⟩
def accept4 : Sysno := ⟨288⟩
def dup3 : Sysno := ⟨292⟩
def preadv : Sysno := ⟨295⟩
def pwritev : Sysno := ⟨296⟩
def recvmmsg : Sysno := ⟨299⟩
def sendmmsg : Sysno := ⟨307⟩
def execveat : Sysno := ⟨322⟩
def preadv2 : Sysno := ⟨327⟩
def pwritev2 : Sysno := ⟨328⟩

end Sysno

namespace HappensBefore

open Common
open DepthFirst (Fault findCycle)

def syscallNeverReturnsOnSuccess (sysno : Sysno) : Bool :=
  sysno ∈ [.execve, .execveat, .exit, .exit_group, .rt_sigreturn]

def syscallTakesFdFirst (sysno : Sysno) : Bool :=
  sysno ∈ [.read, .write, .readv, .writev, .pread64, .pwrite64, .preadv, .pwritev, .preadv2,
    .pwritev2, .close, .fsync, .fdatasync, .ioctl, .fcntl, .lseek, .fstat, .ftruncate, .fallocate,
    .flock, .getdents64, .sendto, .recvfrom, .sendmsg, .recvmsg, .sendmmsg, .recvmmsg, .accept,
    .accept4, .connect, .bind, .listen, .shutdown, .epoll_pwait, .epoll_ctl, .dup, .dup3,
    .epoll_wait, .dup2]

/-! ## Numbers in text -/

def toDigit (radix : ℕ) (c : Char) : Option ℕ :=
  let digit :=
    if '0' ≤ c ∧ c ≤ '9' then some (c.toNat - '0'.toNat)
    else if 'a' ≤ c ∧ c ≤ 'z' then some (c.toNat - 'a'.toNat + 10)
    else if 'A' ≤ c ∧ c ≤ 'Z' then some (c.toNat - 'A'.toNat + 10)
    else none
  digit.filter (· < radix)

def fromDigits (radix : ℕ) (digits : List Char) : Option ℤ :=
  digits.foldlM (fun n c => (toDigit radix c).map fun d => n * radix + d) 0

def fromStrRadix (lo hi : ℤ) (radix : ℕ) (text : List Char) : Option ℤ :=
  let value :=
    match text with
    | [] | ['+'] | ['-'] => none
    | '+' :: digits => fromDigits radix digits
    | '-' :: digits => if lo < 0 then (fromDigits radix digits).map (- ·) else none
    | digits => fromDigits radix digits
  value.filter fun n => lo ≤ n ∧ n ≤ hi

def parseI32 (text : String) : Option ℤ := fromStrRadix (-2 ^ 31) (2 ^ 31 - 1) 10 text.toList

def parseU64 (radix : ℕ) (text : List Char) : Option ℕ :=
  (fromStrRadix 0 (2 ^ 64 - 1) radix text).map Int.toNat

/-- The property `White_Space` of Unicode. -/
def isWhitespace (c : Char) : Bool :=
  let n := c.toNat
  (9 ≤ n && n ≤ 13) || (0x2000 ≤ n && n ≤ 0x200A) ||
    n ∈ [0x20, 0x85, 0xA0, 0x1680, 0x2028, 0x2029, 0x202F, 0x205F, 0x3000]

def trim (text : List Char) : List Char :=
  ((text.dropWhile isWhitespace).reverse.dropWhile isWhitespace).reverse

def parseRip (text : String) : Option ℕ :=
  match trim text.toList with
  | '0' :: 'x' :: hex => parseU64 16 hex
  | '0' :: 'X' :: hex => parseU64 16 hex
  | decimal => parseU64 10 decimal

/-! ## The format -/

def happensBeforeVersion : ℕ := 2

def happensBeforeVersion1 : ℕ := 1

def defaultMaxHoldNs : ℕ := 10000000000

structure ThreadSpec where
  label : Option String := none
  dettid : Option ℤ := none
  spawnOrdinal : Option ℕ := none

structure EventSpec where
  thread : String
  syscalls : Option ℕ := none
  rcbs : Option ℕ := none
  func : Option String := none
  file : Option String := none
  line : Option ℕ := none
  syscall : Option String := none
  phase : Option SyscallPhase := none
  fd : Option ℤ := none
  futexOp : Option ℤ := none
  from_ : Option String := none
  rip : Option String := none
  mark : Option String := none
  nth : Option ℕ := none

inductive Strength
  | hard
  | soft
deriving DecidableEq

structure EdgeSpec where
  before : String
  after : String
  strength : Strength := .hard

structure HappensBeforeSpec where
  version : ℕ
  maxHoldNs : Option ℕ := none
  threads : OrdMap String ThreadSpec := ∅
  events : OrdMap String EventSpec := ∅
  edges : List EdgeSpec := []

/-! ## The normalized model -/

structure ThreadRef where
  label : String
  dettid : Option DetTid
  spawnOrdinal : Option ℕ
deriving DecidableEq

structure CodeLocation where
  function : Option String
  file : Option String
  line : Option ℕ
deriving DecidableEq

def CodeLocation.isEmpty (location : CodeLocation) : Bool :=
  location.function.isNone && location.file.isNone && location.line.isNone

inductive Position
  | syscallCount (n : ℕ)
  | rcb (m : ℕ)
  | syscall (sysno : Sysno) (phase : Option SyscallPhase) (nth : ℕ) (fd : Option ℤ)
      (futexOp : Option ℤ)
  | rip (addr : Option ℕ) (nth : ℕ)
  | marker (name : String) (nth : ℕ)
deriving DecidableEq

structure Anchor where
  name : String
  thread : ThreadRef
  position : Position
  location : CodeLocation
  from_ : Option String
deriving DecidableEq

def Anchor.isSyscallOccurrence (anchor : Anchor) : Bool :=
  match anchor.position with
  | .syscall _ none _ _ _ => true
  | .syscall _ (some .prehook) _ _ _ => true
  | .syscall _ (some .posthook) _ _ _ => true
  | _ => false

structure HappensBeforeEdge where
  before : String
  after : String
  strength : Strength
deriving DecidableEq

structure HappensBeforeProgram where
  version : ℕ
  anchors : OrdMap String Anchor
  edges : List HappensBeforeEdge
  maxHoldNs : Option ℕ

inductive HappensBeforeError
  | unsupportedVersion (version : ℕ)
  | ambiguousPosition (event : String) (found : List String)
  | unknownSyscall (event name : String)
  | nthZero (event : String)
  | fdWithoutSyscall (event : String)
  | fdNotFirstArgument (event syscall : String)
  | badRip (event text : String)
  | unknownEvent (which name : String)
  | unknownThread (event thread : String)
  | cycle (names : List String)
  | newFieldInVersion1 (event : Option String) (field : String)
  | futexOpWithoutFutex (event : String)
  | futexOpOutOfRange (event : String) (value : ℤ)
  | fromUnknownEvent (event base : String)
  | fromOnNonOccurrence (event : String)
  | fromOtherThread (event base : String)
  | fromUnenforcedPosition (event base : String)
  | fromRelativeBase (event base : String)
  | fromCycle (names : List String)
  | posthookOnNoReturnSyscall (event syscall : String)
deriving DecidableEq

inductive Failure
  /-- It returns an error. -/
  | refused (error : HappensBeforeError)
  /-- It panics, for a node without adjacency list. -/
  | missing (name : String)
  /-- It does not end. -/
  | exhausted
deriving DecidableEq

def Failure.ofFault (report : List String → HappensBeforeError) : Fault String → Failure
  | .cycle path => .refused (report path)
  | .missing name => .missing name
  | .exhausted => .exhausted

/-! ## Normalization -/

def HappensBeforeSpec.refuseVersion2Fields (spec : HappensBeforeSpec) :
    Except HappensBeforeError Unit := do
  if spec.maxHoldNs.isSome then throw (.newFieldInVersion1 none "max_hold_ns")
  spec.events.toList.forM fun (name, ev) => do
    if ev.from_.isSome then throw (.newFieldInVersion1 (some name) "from")
    if ev.futexOp.isSome then throw (.newFieldInVersion1 (some name) "futex_op")
    return ()

def HappensBeforeSpec.resolveThread (spec : HappensBeforeSpec) (event thread : String) :
    Except HappensBeforeError ThreadRef :=
  match spec.threads[thread]? with
  | some t => .ok ⟨t.label.getD thread, t.dettid, t.spawnOrdinal⟩
  | none =>
    match parseI32 thread with
    | some raw => .ok ⟨thread, some raw, none⟩
    | none => .error (.unknownThread event thread)

/-- The explicit position selectors of an event. -/
def EventSpec.found (ev : EventSpec) : List String :=
  (if ev.syscalls.isSome then ["syscalls"] else []) ++
  (if ev.rcbs.isSome then ["rcbs"] else []) ++
  (if ev.syscall.isSome then ["syscall"] else []) ++
  (if ev.rip.isSome then ["rip"] else []) ++
  (if ev.mark.isSome then ["mark"] else [])

/-- The operation of a `futex` anchor. -/
def normalizeFutexOp (name : String) (sysno : Sysno) :
    Option ℤ → Except HappensBeforeError (Option ℤ)
  | none => .ok none
  | some value =>
    if sysno ≠ .futex then .error (.futexOpWithoutFutex name)
    else if -2 ^ 31 ≤ value ∧ value < 2 ^ 31 then .ok (some value)
    else .error (.futexOpOutOfRange name value)

def normalizeSyscall (sysnoFromStr : String → Option Sysno) (name sc : String) (ev : EventSpec)
    (nth : ℕ) : Except HappensBeforeError Position :=
  match sysnoFromStr sc with
  | none => .error (.unknownSyscall name sc)
  | some sysno => do
    if ev.fd.isSome ∧ ¬ syscallTakesFdFirst sysno then throw (.fdNotFirstArgument name sc)
    let futexOp ← normalizeFutexOp name sysno ev.futexOp
    if ev.phase = some .posthook ∧ syscallNeverReturnsOnSuccess sysno then
      throw (.posthookOnNoReturnSyscall name sc)
    return .syscall sysno ev.phase nth ev.fd futexOp

def normalizePosition (sysnoFromStr : String → Option Sysno) (name : String) (ev : EventSpec)
    (nth : ℕ) : Except HappensBeforeError Position :=
  match ev.syscalls, ev.rcbs, ev.syscall, ev.rip, ev.mark with
  | some n, _, _, _, _ => .ok (.syscallCount n)
  | none, some m, _, _, _ => .ok (.rcb m)
  | none, none, some sc, _, _ => normalizeSyscall sysnoFromStr name sc ev nth
  | none, none, none, some rip, _ =>
    match parseRip rip with
    | some addr => .ok (.rip (some addr) nth)
    | none => .error (.badRip name rip)
  | none, none, none, none, some mark => .ok (.marker mark nth)
  | none, none, none, none, none => .ok (.rip none nth)

def HappensBeforeSpec.normalizeEvent (spec : HappensBeforeSpec)
    (sysnoFromStr : String → Option Sysno) (name : String) (ev : EventSpec) :
    Except HappensBeforeError Anchor := do
  let thread ← spec.resolveThread name ev.thread
  let location : CodeLocation := ⟨ev.func, ev.file, ev.line⟩
  if 1 < ev.found.length then throw (.ambiguousPosition name ev.found)
  if ev.found = [] ∧ location.isEmpty then throw (.ambiguousPosition name [])
  if ev.fd.isSome ∧ ev.syscall.isNone then throw (.fdWithoutSyscall name)
  if ev.futexOp.isSome ∧ ev.syscall.isNone then throw (.futexOpWithoutFutex name)
  if ev.nth = some 0 ∧ ev.syscalls.isNone ∧ ev.rcbs.isNone then throw (.nthZero name)
  let position ← normalizePosition sysnoFromStr name ev (ev.nth.getD 1)
  return { name, thread, position, location, from_ := ev.from_ }

def sameThread (a b : ThreadRef) : Bool :=
  match a.dettid, b.dettid with
  | some x, some y => x = y
  | none, none => a.spawnOrdinal.isSome && a.spawnOrdinal = b.spawnOrdinal
  | _, _ => false

def Position.isSyscallCount : Position → Bool
  | .syscallCount _ => true
  | _ => false

def checkRelativeBase (anchors : OrdMap String Anchor) (anchor : Anchor) :
    Except HappensBeforeError Unit :=
  match anchor.from_ with
  | none => .ok ()
  | some base =>
    match anchors[base]? with
    | none => .error (.fromUnknownEvent anchor.name base)
    | some baseAnchor => do
      if ¬ anchor.isSyscallOccurrence then throw (.fromOnNonOccurrence anchor.name)
      if ¬ sameThread baseAnchor.thread anchor.thread then
        throw (.fromOtherThread anchor.name base)
      if baseAnchor.from_.isSome then throw (.fromRelativeBase anchor.name base)
      if ¬ baseAnchor.position.isSyscallCount ∧ ¬ baseAnchor.isSyscallOccurrence then
        throw (.fromUnenforcedPosition anchor.name base)
      return ()

def checkRelativeBases (anchors : OrdMap String Anchor) : Except HappensBeforeError Unit :=
  anchors.values.forM (checkRelativeBase anchors)

def resolveEdge (anchors : OrdMap String Anchor) (e : EdgeSpec) :
    Except HappensBeforeError HappensBeforeEdge := do
  if ¬ anchors.contains e.before then throw (.unknownEvent "before" e.before)
  if ¬ anchors.contains e.after then throw (.unknownEvent "after" e.after)
  return ⟨e.before, e.after, e.strength⟩

def adjacency (anchors : OrdMap String Anchor) (edges : List HappensBeforeEdge) :
    OrdMap String (List String) :=
  let nodes := anchors.keys.foldl
    (fun adj name => if adj.contains name then adj else adj.insert name []) ∅
  edges.foldl (fun adj e => adj.insert e.before (adj[e.before]?.getD [] ++ [e.after])) nodes

def detectCycle (anchors : OrdMap String Anchor) (edges : List HappensBeforeEdge) :
    Except (Fault String) Unit :=
  findCycle (adjacency anchors edges)

def activationEdges (anchors : OrdMap String Anchor) : List HappensBeforeEdge :=
  anchors.values.filterMap fun a => a.from_.map fun base => ⟨base, a.name, .hard⟩

def withActivation (anchors : OrdMap String Anchor) (edges : List HappensBeforeEdge) :
    List HappensBeforeEdge :=
  (edges ++ activationEdges anchors).filter fun e => e.strength = .hard

def HappensBeforeSpec.normalizeEvents (spec : HappensBeforeSpec)
    (sysnoFromStr : String → Option Sysno) : Except HappensBeforeError (OrdMap String Anchor) :=
  spec.events.toList.foldlM (fun anchors (name, ev) => do
      return anchors.insert name (← spec.normalizeEvent sysnoFromStr name ev)) ∅

/-- The part of `normalize` before the cycle checks. -/
def HappensBeforeSpec.resolve (spec : HappensBeforeSpec) (sysnoFromStr : String → Option Sysno) :
    Except HappensBeforeError (OrdMap String Anchor × List HappensBeforeEdge) := do
  if spec.version ≠ happensBeforeVersion ∧ spec.version ≠ happensBeforeVersion1 then
    throw (.unsupportedVersion spec.version)
  if spec.version = happensBeforeVersion1 then spec.refuseVersion2Fields
  let anchors ← spec.normalizeEvents sysnoFromStr
  checkRelativeBases anchors
  let edges ← spec.edges.mapM (resolveEdge anchors)
  return (anchors, edges)

def HappensBeforeSpec.normalize (spec : HappensBeforeSpec) (sysnoFromStr : String → Option Sysno) :
    Except Failure HappensBeforeProgram := do
  let (anchors, edges) ← (spec.resolve sysnoFromStr).mapError .refused
  (detectCycle anchors edges).mapError (.ofFault .cycle)
  (detectCycle anchors (withActivation anchors edges)).mapError (.ofFault .fromCycle)
  return {
    version := spec.version
    anchors
    edges
    maxHoldNs :=
      if spec.version = happensBeforeVersion then some (spec.maxHoldNs.getD defaultMaxHoldNs)
      else none }

end HappensBefore

end Hermit
