import KeyedQuery.Text.Parts

/-!
# Faults

A `StoreFault` is what a store answers instead of a result. A `Fault` is what an operation of
this library ends with when it cannot finish, one constructor a cause. `Fault.code` and
`Fault.severity` classify it for programs, `Fault.message` says it in words.
-/

namespace KeyedQuery

/-- Why a store did not carry out a request. -/
inductive StoreFault where
  /-- The store rejected the request with a code of its own. -/
  | service (code message : String)
  /-- The store gave up a transaction. -/
  | canceled (reason : String)
  /-- The request or the answer got lost. -/
  | transport (reason : String)
deriving DecidableEq

namespace StoreFault

/-- The code of a rejected request. -/
def code? : StoreFault → Option String
  | .service code _ => some code
  | _ => none

/-- The fault in words. -/
def message : StoreFault → String
  | .service code text => "Store rejected request (" ++ code ++ "): " ++ text
  | .canceled reason => "Transaction canceled: " ++ reason
  | .transport reason => "Transport error: " ++ reason

/-- Parts of codes that stand for throttling or a passing failure. -/
def transientSigns : List String :=
  ["ProvisionedThroughputExceeded", "Throttling", "RequestLimitExceeded", "InternalServerError",
    "ServiceUnavailable"]

/-- Whether sending the request again can help. -/
def isTransient : StoreFault → Bool
  | .service code _ => transientSigns.any fun sign => hasPart code sign
  | _ => false

end StoreFault

/-- How grave a fault is. -/
inductive Severity where
  /-- The set-up is wrong; nothing was sent. -/
  | fatal
  /-- The request makes no sense as it stands. -/
  | reject
  /-- A safety limit was reached. -/
  | limit
  /-- The store failed or kept refusing work. -/
  | error
deriving DecidableEq

/-- The severity as it is written. -/
def Severity.text : Severity → String
  | .fatal => "FATAL"
  | .reject => "REJECT"
  | .limit => "LIMIT"
  | .error => "ERROR"

/-- Why an operation ended without a result. -/
inductive Fault where
  /-- A setting or a definition is invalid. -/
  | invalidConfig (reason : String)
  /-- No table is known for a model. -/
  | missingTable (model : String)
  /-- No primary key is known for a model. -/
  | missingPrimaryKey (model : String)
  /-- A query leaves out what planning needs. -/
  | missingInput (reason : String)
  /-- No operator has this name. -/
  | unsupportedOperator (name : String)
  /-- The conditions fix no key where one is needed. -/
  | missingKeyCondition (model : String)
  /-- A fetch used up its pages. -/
  | pageLimit (maxPages : Nat)
  /-- A transaction is full. -/
  | transactionLimit (maxOperations : Nat)
  /-- A transaction was already committed or aborted. -/
  | transactionClosed
  /-- The store kept leaving keys of a batch unprocessed. -/
  | unprocessedKeys (remaining attempts : Nat)
  /-- An update changes nothing or cannot be expressed. -/
  | invalidUpdate (reason : String)
  /-- The store answered a request with a fault. -/
  | store (fault : StoreFault)
  /-- A fetch without page limit was still being continued when the library stopped following. -/
  | endlessFetch (pages : Nat)
deriving DecidableEq

namespace Fault

/-- The machine-readable code of the cause. -/
def code : Fault → String
  | .invalidConfig _ => "DQ_CONFIG_INVALID"
  | .missingTable _ => "DQ_MISSING_TABLE"
  | .missingPrimaryKey _ => "DQ_MISSING_PRIMARY_KEY"
  | .missingInput _ => "DQ_MISSING_PLAN_INPUT"
  | .unsupportedOperator _ => "DQ_UNSUPPORTED_OPERATOR"
  | .missingKeyCondition _ => "DQ_MISSING_KEY_CONDITION"
  | .pageLimit _ => "DQ_SCAN_PAGE_LIMIT"
  | .transactionLimit _ => "DQ_TRANSACTION_LIMIT"
  | .transactionClosed => "DQ_TRANSACTION_CLOSED"
  | .unprocessedKeys _ _ => "DQ_BATCH_GET_UNPROCESSED"
  | .invalidUpdate _ => "DQ_INVALID_UPDATE"
  | .store _ => "DQ_STORE_FAILED"
  | .endlessFetch _ => "DQ_ENDLESS_FETCH"

/-- How grave the cause is. -/
def severity : Fault → Severity
  | .invalidConfig _ | .missingTable _ | .missingPrimaryKey _ | .missingInput _ => .fatal
  | .unsupportedOperator _ | .missingKeyCondition _ | .transactionClosed | .invalidUpdate _ =>
    .reject
  | .pageLimit _ | .transactionLimit _ | .endlessFetch _ => .limit
  | .unprocessedKeys _ _ | .store _ => .error

/-- The cause in words. -/
def message : Fault → String
  | .invalidConfig reason | .missingInput reason | .invalidUpdate reason => reason
  | .missingTable model => "No table registered for model '" ++ model ++ "'"
  | .missingPrimaryKey model => "No primary key registered for model '" ++ model ++ "'"
  | .unsupportedOperator name => "Operator '" ++ name ++ "' is not supported"
  | .missingKeyCondition model =>
    "No key condition could be built for model '" ++ model ++ "'"
  | .pageLimit maxPages => "Fetch exceeded the maximum of " ++ toString maxPages ++ " pages"
  | .transactionLimit maxOperations =>
    "Transaction cannot hold more than " ++ toString maxOperations ++ " operations"
  | .transactionClosed => "Transaction was already committed or aborted"
  | .unprocessedKeys remaining attempts =>
    toString remaining ++ " keys still unprocessed after " ++ toString attempts ++ " attempts"
  | .store fault => fault.message
  | .endlessFetch pages => "Fetch was still being continued after " ++ toString pages ++ " pages"

/-- Severity, code and message in one line. -/
def display (f : Fault) : String :=
  "[" ++ f.severity.text ++ "] " ++ f.code ++ ": " ++ f.message

/-- The fault of the store behind it, if there is one. -/
def source? : Fault → Option StoreFault
  | .store fault => some fault
  | _ => none

end Fault

end KeyedQuery
