import QyUtil.Diagnosis.NativeStatus
import QyUtil.Dns.Joining
import QyUtil.Ping.Pinger
import QyUtil.TaskQueue.Liveness

/-! # Asynchronous calls

The functions for other languages put a task and come back at once. The task keeps the
pointers it was given, so a string of the caller is read when the worker gets to it, and a
string of 4096 bytes for the result. The second callable of the task hands this result to
the callback. All tasks go to `qyutil_instance`, which has one worker.
-/

namespace QyUtil.Async

open Runs Loops Outcome Bytes TaskQueue Dns Ping Diagnosis

universe u

abbrev Pointer := ℕ

/-- The strings of the callers, without those that have been released. -/
abbrev Memory := Pointer → Option Bytes

/-- Undefined behaviour, and the exceptions that nothing catches. -/
inductive Fault where
  | nullString
  | released (p : Pointer)
  | negativeLength
  | overread
  | overflow
  | danglingResult
  | join (e : JoinFault)
  | lookup (e : Dns.Fault)
  | queue (e : TaskQueue.Fault)
  deriving DecidableEq, Repr

def Memory.read (m : Memory) (p : Pointer) : Outcome Fault Bytes :=
  match m p with
  | some s => pure s
  | none => fault (.released p)

def Memory.readOptional (m : Memory) : Option Pointer → Outcome Fault (Option Bytes)
  | none => pure none
  | some p => do
    let s ← m.read p
    pure (some s)

def Memory.readString (m : Memory) : Option Pointer → Outcome Fault Bytes
  | none => fault .nullString
  | some p => do
    let s ← m.read p
    pure (cString s)

/-- What a callable meets outside while it runs, and what its uninitialised memory holds. -/
structure World where
  fuel : ℕ
  net : Network
  pid : UInt16
  socket : ℤ
  attempt : ℕ → Attempt
  pings : Pings
  garbage : ErrorInfo
  ipInfo : SocketIpInfo
  format : DoubleFormat
  storage : ℕ → OcPingStatus

/-- A synchronous function with its arguments, without `result`. -/
inductive Native where
  | getHostNameByServer (hostName : Option Pointer) (timeout : ℤ) (dnsServer : Option Pointer)
  | ping (host : Option Pointer) (times packageSize interval timeout : ℤ)
  | traceRouter (host : Option Pointer)
  deriving DecidableEq, Repr

/-- `MaxStrBuf` zeros, as `resize` leaves them. -/
def newResult : Bytes := List.replicate 4096 0

/-- `NativeGetHostNameByServer` with pointers. A null host is turned away before the server
is looked at. -/
def nativeLookup (m : Memory) (w : World) (hostName : Option Pointer) (timeout : ℤ)
    (dnsServer : Option Pointer) (ipList : Bytes) : Outcome Fault (ℤ × Bytes) := do
  let host ← m.readOptional hostName
  let dns ← m.readOptional (if host.isSome then dnsServer else none)
  (nativeGetHostNameByServer w.fuel w.net host timeout dns ipList).liftFault .join

/-- `NativePing`, which writes nothing to its result. `sendto` reads the packet in
`_send_buf`, which may be longer than the buffer, and `statistics` takes the product
`_interval*1000` of two `int`s. -/
def nativePing (m : Memory) (w : World) (host : Option Pointer)
    (times packageSize interval : ℤ) (result : Bytes) : Outcome Fault Bytes := do
  let host ← m.readString host
  guard .negativeLength (0 ≤ packageSize)
  let pinger := start ⟨host, times, packageSize.toNat, w.pid⟩ w.socket w.attempt
  guard .overread (∀ packet ∈ pinger.sent, packet.2 ≤ packet.1.length)
  guard .overflow (-2 ^ 31 ≤ interval * 1000 ∧ interval * 1000 < 2 ^ 31)
  pure result

/-- `NativeTraceRouter`. Whatever the route, `output->result()` is the address of a string
that is gone. -/
def nativeTraceRouter (m : Memory) (host : Option Pointer) : Outcome Fault Bytes := do
  let _ ← m.readString host
  fault .danglingResult

def Native.call (m : Memory) (w : World) (result : Bytes) : Native → Outcome Fault Bytes
  | .getHostNameByServer hostName timeout dnsServer => do
    let r ← nativeLookup m w hostName timeout dnsServer result
    pure r.2
  | .ping host times packageSize interval _ =>
    nativePing m w host times packageSize interval result
  | .traceRouter host => nativeTraceRouter m host

/-- The callables that are put. The string for a result is named by the number of its task. -/
inductive Callable (κ : Type) where
  | native (f : Native) (result : ℕ)
  | callback (cb : Option κ) (result : ℕ)
  | networkDiagnosis (host dnsSer : Bytes) (cb : Option κ)
  | copyHost (host : Option Pointer)
  deriving DecidableEq, Repr

variable {κ : Type} {π : Type u}

def asyncNative (f : Native) (cb : Option κ) (result : ℕ) : QYUtilTask (Callable κ) :=
  ⟨some (.native f result), some (.callback cb result)⟩

def asyncNativeGetHostNameByServer (hostName : Option Pointer) (timeout : ℤ)
    (dnsServer : Option Pointer) (cb : Option κ) (result : ℕ) : QYUtilTask (Callable κ) :=
  asyncNative (.getHostNameByServer hostName timeout dnsServer) cb result

def asyncNativePing (host : Option Pointer) (times packageSize interval timeout : ℤ)
    (cb : Option κ) (result : ℕ) : QYUtilTask (Callable κ) :=
  asyncNative (.ping host times packageSize interval timeout) cb result

def asyncNativeTraceRouter (host : Option Pointer) (cb : Option κ) (result : ℕ) :
    QYUtilTask (Callable κ) :=
  asyncNative (.traceRouter host) cb result

/-- `OC_NetworkDiagnosis` copies both strings for its first callable. The second one keeps
the pointer. -/
def ocNetworkDiagnosis (m : Memory) (host dnsSer : Option Pointer) (cb : Option κ) :
    Outcome Fault (QYUtilTask (Callable κ)) := do
  let _host ← m.readString host
  let _dnsSer ← m.readOptional dnsSer
  pure ⟨some (.networkDiagnosis _host (cString (_dnsSer.getD [])) cb), some (.copyHost host)⟩

inductive Request (κ : Type) where
  | getHostNameByServer (hostName : Option Pointer) (timeout : ℤ) (dnsServer : Option Pointer)
    (cb : Option κ)
  | ping (host : Option Pointer) (times packageSize interval timeout : ℤ) (cb : Option κ)
  | traceRouter (host : Option Pointer) (cb : Option κ)
  | networkDiagnosis (host dnsSer : Option Pointer) (cb : Option κ)
  deriving DecidableEq, Repr

def Request.task (m : Memory) (number : ℕ) :
    Request κ → Outcome Fault (QYUtilTask (Callable κ))
  | .getHostNameByServer hostName timeout dnsServer cb =>
    pure (asyncNativeGetHostNameByServer hostName timeout dnsServer cb number)
  | .ping host times packageSize interval timeout cb =>
    pure (asyncNativePing host times packageSize interval timeout cb number)
  | .traceRouter host cb => pure (asyncNativeTraceRouter host cb number)
  | .networkDiagnosis host dnsSer cb => ocNetworkDiagnosis m host dnsSer cb

inductive Delivery (κ : Type) where
  | text (cb : κ) (state : Bool) (result : Bytes)
  | status (cb : κ) (status : OcPingStatus) (code : ℤ) (msg : Bytes)

/-- What an `OC_Callback` passes on of the calls it gets. -/
def ocCalls (w : World) (cb : Option κ) (calls : List Diagnosis.Call) : List (Delivery κ) :=
  calls.zipIdx.filterMap fun c => match c.1, cb with
    | .ping status error, some cb =>
      (ocPing w.format true (w.storage c.2) status error).map fun r =>
        .status cb r.1 r.2.1 r.2.2
    | _, _ => none

def runDiagnosis (w : World) (host dnsSer : Bytes) (cb : Option κ) :
    Outcome Fault (List (Delivery κ)) := do
  let r ← (networkDiagnosis w.fuel w.net w.pings w.garbage w.ipInfo host dnsSer 10000).liftFault
    .lookup
  pure (ocCalls w cb r.2)

def Callable.hands (results : ℕ → Bytes) : Callable κ → List (Delivery κ)
  | .callback (some cb) result => [.text cb true (cString (results result))]
  | _ => []

/-- A callable runs, with the strings as they are in memory: the results afterwards, and what
it hands over. -/
def Callable.run (m : Memory) (w : World) (results : ℕ → Bytes) :
    Callable κ → Outcome Fault ((ℕ → Bytes) × List (Delivery κ))
  | .native f result => do
    let text ← f.call m w (results result)
    pure (Function.update results result text, [])
  | .networkDiagnosis host dnsSer cb => do
    let calls ← runDiagnosis w host dnsSer cb
    pure (results, calls)
  | .copyHost host => do
    let _ ← m.readString host
    pure (results, [])
  | .callback cb result => pure (results, hands results (.callback cb result))

/-- A first callable that has returned: the memory that it found, and what it met. -/
structure Served (κ : Type) where
  job : Job (Callable κ)
  memory : Memory
  world : World

/-- The queue and its worker, the strings of the callers and those for the results, and the
record of the past: the calls made to the user, the requests with the memory they found, and
the tasks served. A string for a result counts as new before it is made. -/
structure State (κ : Type) (π : Type u) where
  queue : Locking.State 1 (Callable κ) π
  memory : Memory
  results : ℕ → Bytes
  delivered : List (Delivery κ)
  requests : ℕ → Option (Request κ × Memory)
  served : List (Served κ)

def theWorker : Fin 1 := ⟨0, Nat.one_pos⟩

def State.running (s : State κ π) : Option (Job (Callable κ) × Callable κ) :=
  match s.queue.worker theWorker with
  | .out (.inFirst job) => job.task.first.map (job, ·)
  | .out (.inSecond job) => job.task.second.map (job, ·)
  | _ => none

/-- The steps of the callers and of the worker. A caller makes a call as soon as it gets the
mutex, and changes or releases its strings at any time. What a callable reads and writes
happens when it returns. -/
inductive Action (κ : Type) (π : Type u) where
  | call (p : π) (r : Request κ)
  | thread (a : Locking.Action 1 (Callable κ) π)
  | returns (w : World)
  | store (p : Pointer) (s : Option Bytes)

variable [DecidableEq π]

def queueStep (q : Locking.State 1 (Callable κ) π) (a : Locking.Action 1 (Callable κ) π)
    (f : Locking.State 1 (Callable κ) π → State κ π) : Option (Except Fault (State κ π)) :=
  (Locking.step q a).map fun r => match r with
    | .ok q' => .ok (f q')
    | .error e => .error (.queue e)

def State.record (s : State κ π) (job : Job (Callable κ)) (w : World) : List (Served κ) :=
  match s.queue.worker theWorker with
  | .out (.inFirst _) => s.served ++ [⟨job, s.memory, w⟩]
  | _ => s.served

def step (s : State κ π) : Action κ π → Option (Except Fault (State κ π))
  | .call p r => match r.task s.memory s.queue.enqueued.length with
    | .running => none
    | .fault e => some (.error e)
    | .done task => queueStep s.queue (.lockPut p task) fun q =>
      { s with
        queue := q
        requests := Function.update s.requests s.queue.enqueued.length (some (r, s.memory)) }
  | .thread a => match a, s.running with
    | .lockPut _ _, _ | .advance _, some _ => none
    | a, _ => queueStep s.queue a fun q => { s with queue := q }
  | .returns w => match s.running with
    | none => none
    | some (job, c) => match c.run s.memory w s.results with
      | .running => none
      | .fault e => some (.error e)
      | .done r => queueStep s.queue (.advance theWorker) fun q =>
        { s with
          queue := q
          results := r.1
          delivered := s.delivered ++ r.2
          served := s.record job w }
  | .store p t => some (.ok { s with memory := Function.update s.memory p t })

def init (memory : Memory) : State κ π :=
  ⟨Locking.init, memory, fun _ => newResult, [], fun _ => none, []⟩

def machine (memory : Memory) (κ : Type) (π : Type u) [DecidableEq π] :
    Machine (State κ π) (Action κ π) Fault := ⟨init memory, step⟩

end QyUtil.Async
