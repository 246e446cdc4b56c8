import KeyedQuery.Fault
import KeyedQuery.Document.Reader
import KeyedQuery.Document.Record

/-!
# Configuration

How far a fetch follows pages, how many rows a join attaches, and how a failed request is
repeated. Every setting has a default; `Config.validate` refuses settings under which nothing
could run. `RetryConfig.delay` is the wait before a repetition: it doubles each time, up to the
configured longest wait.
-/

namespace KeyedQuery

/-- What a fetch does when it has used up its pages. -/
inductive PageMode where
  /-- It fails. -/
  | throw
  /-- It goes on until the store has no further page. -/
  | unbounded
deriving DecidableEq

/-- How requests are repeated after a transient fault. -/
structure RetryConfig where
  /-- How often a request is sent at most, the first time included. -/
  maxAttempts : UInt32 := 5
  /-- The wait before the first repetition, in milliseconds. -/
  baseDelay : UInt64 := 50
  /-- The longest wait, in milliseconds. -/
  maxDelay : UInt64 := 2000
deriving DecidableEq

/-- The settings of the library. -/
structure Config where
  /-- The pages one fetch may take. -/
  maxPages : Nat := 100
  /-- What happens when they are used up. -/
  pageMode : PageMode := .throw
  /-- The rows a join attaches when it sets no limit. -/
  defaultJoinLimit : Nat := 100
  /-- How requests are repeated. -/
  retry : RetryConfig := {}
deriving DecidableEq

namespace RetryConfig

/-- The largest 64-bit word, where waiting times saturate. -/
def saturation : Nat := Nat.pow 2 64 - 1

/-- A power of two, saturated. -/
def saturatedPower (exponent : Nat) : Nat :=
  if exponent < 64 then Nat.pow 2 exponent else saturation

/-- The wait before repetition number `retry`, counted from zero, in milliseconds. -/
def delay (r : RetryConfig) (retry : Nat) : Nat :=
  min (min (r.baseDelay.toNat * saturatedPower retry) saturation) r.maxDelay.toNat

end RetryConfig

namespace Config

/-- The settings are usable; the first unusable one is reported. -/
def validate (c : Config) : Except Fault Unit :=
  if c.maxPages = 0 then
    .error (.invalidConfig "max_pages must be positive")
  else if c.defaultJoinLimit = 0 then
    .error (.invalidConfig "default_join_limit must be positive")
  else if c.retry.maxAttempts = 0 then
    .error (.invalidConfig "retry.max_attempts must be positive")
  else if c.retry.maxDelay < c.retry.baseDelay then
    .error (.invalidConfig "retry.base_delay_ms must not exceed retry.max_delay_ms")
  else
    .ok ()

end Config

/-! ## Reading -/

open Document in
/-- The retry settings of a document, with defaults for what it leaves out. -/
def RetryConfig.ofDocument? (d : Document) : Option RetryConfig := do
  let fallback : RetryConfig := {}
  match ← d.slots? ["max_attempts", "base_delay_ms", "max_delay_ms"] with
  | [attempts, base, longest] =>
    some
      { maxAttempts := ← defaulted fallback.maxAttempts
          (fun d => (natBelow? (Nat.pow 2 32) d).map UInt32.ofNat) attempts
        baseDelay := ← defaulted fallback.baseDelay (fun d => (size? d).map UInt64.ofNat) base
        maxDelay := ← defaulted fallback.maxDelay (fun d => (size? d).map UInt64.ofNat) longest }
  | _ => none

open Document in
/-- The settings of a document, with defaults for what it leaves out. -/
def Config.ofDocument? (d : Document) : Option Config := do
  let fallback : Config := {}
  match ← d.slots? ["max_pages", "page_limit_mode", "default_join_limit", "retry"] with
  | [pages, mode, joinLimit, retry] =>
    some
      { maxPages := ← defaulted fallback.maxPages size? pages
        pageMode := ← defaulted fallback.pageMode
          (constant? [("throw", .throw), ("unbounded", .unbounded)]) mode
        defaultJoinLimit := ← defaulted fallback.defaultJoinLimit size? joinLimit
        retry := ← defaulted fallback.retry RetryConfig.ofDocument? retry }
  | _ => none

/-- Read settings from a text and validate them. -/
def Config.read (text : String) : Except Fault Config :=
  match (Document.read? text).bind Config.ofDocument? with
  | some c => c.validate.map fun _ => c
  | none => .error (.invalidConfig "Malformed config")

/-! ## Writing -/

/-- The page mode as it is written. -/
def PageMode.text : PageMode → String
  | .throw => "throw"
  | .unbounded => "unbounded"

/-- The retry settings as a value. -/
def RetryConfig.toValue (r : RetryConfig) : Value :=
  .map (Fields.ofList
    [("max_attempts", .ofNat r.maxAttempts.toNat), ("base_delay_ms", .ofNat r.baseDelay.toNat),
      ("max_delay_ms", .ofNat r.maxDelay.toNat)])

/-- The settings as a value. -/
def Config.toValue (c : Config) : Value :=
  .map (Fields.ofList
    [("max_pages", .ofNat c.maxPages), ("page_limit_mode", .str c.pageMode.text),
      ("default_join_limit", .ofNat c.defaultJoinLimit), ("retry", c.retry.toValue)])

end KeyedQuery
