/-!
# Helpers of the event builder

The namespace `utils::builder` of `shared/utils/utils.cc`. Of the log library
the repository names the fields of an entry and four reasons for a reject;
the switches over the reason have a default for any other. The host's
`std::localtime` is a parameter.
-/

namespace EventHistory

/-! ## The log library -/

/-- `net::logger::RejectReason`. -/
inductive RejectReason where
  | none
  | invalidFormat
  | invalidIPAddress
  | filterRejected
  | other (value : Int)
deriving Repr, DecidableEq

/-- `net::logger::LogEntry`; the address is what `ToUint32` returns. -/
structure LogEntry where
  rawLine : String
  parsedIp : Option UInt32
  reason : RejectReason
deriving Repr, DecidableEq

/-! ## `utils::builder` -/

/-- `std::tm`: years since 1900, months from 0. -/
structure Tm where
  tmYear : Int
  tmMon : Int
  tmMday : Int
  tmHour : Int
  tmMin : Int
  tmSec : Int
deriving Repr, DecidableEq

/-- `%m`, `%d`, `%H`, `%M`, `%S`. -/
def twoDigits (n : Int) : String :=
  if 0 ≤ n ∧ n < 10 then "0" ++ toString n else toString n

/-- `std::put_time` with `%Y-%m-%d %H:%M:%S`. -/
def putTime (tm : Tm) : String :=
  toString (tm.tmYear + 1900) ++ "-" ++ twoDigits (tm.tmMon + 1) ++ "-" ++ twoDigits tm.tmMday
    ++ " " ++ twoDigits tm.tmHour ++ ":" ++ twoDigits tm.tmMin ++ ":" ++ twoDigits tm.tmSec

/-- `std::chrono::system_clock::to_time_t`; the clock counts nanoseconds. -/
def toTimeT (timestamp : Int) : Int := timestamp.tdiv 1000000000

def formatTimestamp (localtime : Int → Tm) (timestamp : Int) : String :=
  putTime (localtime (toTimeT timestamp))

def filterRejectReasonToStr : RejectReason → Option String
  | .invalidFormat => some "Invalid Format"
  | .invalidIPAddress => some "InvalidIPAddress"
  | .filterRejected => some "FilterRejected"
  | .none | .other _ => none

def getFilterDecision : RejectReason → String
  | .none => "accepted"
  | _ => "rejected"

/-- `IPv4AddressToString`, the canonical dotted-quad of an address. -/
def ipv4AddressToString (addr : UInt32) : String :=
  let octet1 := (addr >>> 24) &&& 0xFF
  let octet2 := (addr >>> 16) &&& 0xFF
  let octet3 := (addr >>> 8) &&& 0xFF
  let octet4 := addr &&& 0xFF
  toString octet1.toNat ++ "." ++ toString octet2.toNat ++ "." ++ toString octet3.toNat ++ "."
    ++ toString octet4.toNat

example : ipv4AddressToString 0xFF000001 = "255.0.0.1" := by decide

theorem putTime_ne_empty (tm : Tm) : (putTime tm).isEmpty = false := by
  simp [putTime]

theorem getFilterDecision_mem (reason : RejectReason) :
    getFilterDecision reason = "accepted" ∨ getFilterDecision reason = "rejected" := by
  cases reason <;> simp [getFilterDecision]

end EventHistory
