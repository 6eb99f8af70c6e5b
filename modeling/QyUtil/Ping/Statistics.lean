import QyUtil.Loops.Basic
import QyUtil.Bytes.Search
import QyUtil.Ping.Pinger

/-! # The status of a host

The two ways in which `PingStatus` comes about: `pinger<_, 0>::statistics` counts over
the records of the attempts, and `pinger<_, 1>::GetPingStatus` reads the text that the
command `ping` has written. Numbers of type `float` and `double` are rationals, and
positions in texts are small enough for `int`.
-/

namespace QyUtil.Ping

open Loops Outcome Turn Bytes Search

structure PingStatus where
  res : Bytes
  lossRate : ℚ
  minrtt : ℚ
  avgrtt : ℚ
  maxrtt : ℚ
  ip : Bytes
  deriving DecidableEq

def PingStatus.new : PingStatus := ⟨[], 0, 0, 0, 0, List.replicate 16 0⟩

def strncpy (dest src : Bytes) (n : ℕ) : Bytes :=
  writeAt dest 0 ((cString src ++ List.replicate n 0).take n)

def timesOf (times : ℤ) : ℤ := if times = 0 then 4 else times

/-- The variables of `statistics`, of which the last three are `u64` values. -/
structure Tally where
  sendc : ℤ
  recvc : ℤ
  max : ℕ
  min : ℕ
  avg : ℕ
  deriving DecidableEq, Repr

def Tally.add (t : Tally) (it : PingState) : Tally :=
  let t := if it.bsend then { t with sendc := t.sendc + 1 } else t
  let t := if it.brecv then { t with recvc := t.recvc + 1 } else t
  if it.bsend && it.brecv then
    { t with
      max := if t.max < it.costTime then it.costTime else t.max
      min := if it.costTime < t.min then it.costTime else t.min
      avg := (t.avg + it.costTime) % 2 ^ 64 }
  else t

/-- The `int` product `_interval*1000`, which wraps around, as a `u64`. -/
def startMin (interval : ℤ) : ℕ := ((interval * 1000).bmod (2 ^ 32) % 2 ^ 64).toNat

/-- `statistics`, for a pinger with this interval in seconds. -/
def statistics (c : Config) (interval : ℤ) (s : Pinger) (status : PingStatus) : PingStatus :=
  let t := s.result.foldl Tally.add ⟨0, 0, 0, startMin interval, 0⟩
  let times : ℚ := timesOf c.times
  { status with
    lossRate := (2 * times - t.sendc - t.recvc) / (2 * times) * 100
    maxrtt := t.max
    avgrtt := t.avg / times
    minrtt := t.min
    ip := strncpy status.ip c.host 15 }

def pingStatus (c : Config) (interval socket : ℤ) (env : ℕ → Attempt) : PingStatus :=
  statistics c interval (start c socket env) .new

/-- The variables of `str_split`; `none` is the position -1. -/
structure StrSplit where
  findBegpos : ℕ
  findpos : Option ℕ
  vecPingres : List Bytes
  deriving DecidableEq

def strSplitTurn (spliter : UInt8) (pingresult : Bytes) (s : StrSplit) :
    Outcome Empty (Turn StrSplit (List Bytes)) :=
  if ∃ p ∈ s.findpos, p < pingresult.length then
    let findpos := find pingresult [spliter] s.findBegpos
    let rest := pingresult.drop s.findBegpos
    let piece := match findpos with
      | some p => rest.take (p - s.findBegpos)
      | none => rest
    pure (.again ⟨match findpos with
      | some p => p + 1
      | none => 0, findpos, s.vecPingres ++ [piece]⟩)
  else pure (.exit s.vecPingres)

def strSplit (fuel : ℕ) (spliter : UInt8) (pingresult : Bytes) : Outcome Empty (List Bytes) :=
  loop (strSplitTurn spliter pingresult) fuel ⟨0, some 0, []⟩

/-- The address in the first line, between parentheses. -/
def readIp (line : Bytes) (status : PingStatus) : PingStatus :=
  match find line [40] 0, find line [41] 0 with
  | some index1, some index2 =>
    if 0 < index1 ∧ index1 < index2 then
      let size := index2 - index1 - 1
      let ipTemp := (line.drop (index1 + 1)).take size
      { status with ip := strncpy status.ip ipTemp (if size < 16 then size else 15) }
    else status
  | _, _ => status

/-- The loop over the digits of the loss rate, which goes from the last one to the left
until it meets a space; `none` is the exception of `at`. -/
def lossDigits : Bytes → ℤ → ℤ → Option ℤ
  | [], _, _ => none
  | c :: left, lossRate, weight =>
    if c = 32 then some lossRate
    else lossDigits left (lossRate + ((c.toNat : ℤ) - 48) * weight) (weight * 10)

def readLoss (line : Bytes) (status : PingStatus) : Option PingStatus :=
  match find line (ascii "packet loss") 0 with
  | none => some status
  | some num => do
    let lossRate ← lossDigits (line.take (num - 2)).reverse 0 1
    pure { status with lossRate := lossRate / 100 }

/-- `atof` of a number in decimal notation. -/
def atof (s : Bytes) : ℚ :=
  let t := (cString s).dropWhile fun c => c = 32 || (9 ≤ c && c ≤ 13)
  let u := if t.head? = some 45 ∨ t.head? = some 43 then t.tail else t
  let whole := u.takeWhile isDigit
  let fraction := match u.dropWhile isDigit with
    | 46 :: v => v.takeWhile isDigit
    | _ => []
  let value : ℚ := digitsValue (whole ++ fraction) / 10 ^ fraction.length
  if t.head? = some 45 then -value else value

/-- A number that ends with a slash, or with the line, and the position behind the slash;
`none` is the exception of the constructor of `string`. -/
def readRttField (line : Bytes) (findBegpos : ℕ) : Option (Bytes × ℕ) :=
  if line.length < findBegpos then none
  else match find line [47] findBegpos with
    | some p => some ((line.drop findBegpos).take (p - findBegpos), p + 1)
    | none => some (line.drop findBegpos, 0)

def readRtt (line : Bytes) (status : PingStatus) : Option PingStatus :=
  match find line (ascii "rtt min/avg/max") 0 with
  | none => some status
  | some _ => do
    let (sminRTT, findBegpos) ← readRttField line 23
    let (savgRTT, findBegpos) ← readRttField line findBegpos
    let (smaxRTT, _) ← readRttField line findBegpos
    pure { status with minrtt := atof sminRTT, avgrtt := atof savgRTT, maxrtt := atof smaxRTT }

/-- The loop over the lines; the flag tells that a line has thrown. -/
def readLines (first : Bool) : List Bytes → PingStatus → PingStatus × Bool
  | [], status => (status, false)
  | line :: lines, status =>
    let status := if first then readIp line status else status
    match readLoss line status with
    | none => (status, true)
    | some status =>
      match readRtt line status with
      | none => (status, true)
      | some status => readLines false lines status

/-- `GetPingStatus`: the status, and the result, or `none` for an exception. -/
def getPingStatus (fuel : ℕ) (pingresult : Bytes) (status : PingStatus) :
    Outcome Empty (PingStatus × Option ℤ) :=
  if pingresult = [] then pure (status, some (-1))
  else do
    let vecPingRes ← strSplit fuel 10 pingresult
    let (status, thrown) := readLines true vecPingRes { status with res := pingresult }
    pure (status, if thrown then none else some 0)

end QyUtil.Ping
