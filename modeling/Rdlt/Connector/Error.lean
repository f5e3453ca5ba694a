/-
  Rdlt.Connector.Error

  The error every connector returns: what kind of failure it is, a stable code,
  and its message.
-/

import Rdlt.Merge.Key

namespace Rdlt

/-- What kind of failure an error reports, of those a modelled call gives. -/
inductive ErrorKind where
  | config
  | data
  | fenced
  | internal
  deriving DecidableEq, Repr

structure ConnectorError where
  kind : ErrorKind
  code : Option String
  message : String
  deriving DecidableEq, Repr

namespace ConnectorError

def config (message : String) : ConnectorError := { kind := .config, code := none, message }

def data (message : String) : ConnectorError := { kind := .data, code := none, message }

def fenced (message : String) : ConnectorError := { kind := .fenced, code := none, message }

def internal (message : String) : ConnectorError := { kind := .internal, code := none, message }

def withCode (error : ConnectorError) (code : String) : ConnectorError :=
  { error with code := some code }

def tableOwned (table owner : String) : ConnectorError :=
  (config s!"table {table} belongs to pipeline {owner}").withCode "table_owned"

end ConnectorError

namespace Merge

def MergeError.text : MergeError → String
  | .refused _ message => message
  | .missing column => s!"Unable to get field named {column}"
  | .cast message => message

/-- A merge's error, met while `doing`, as a connector's: a refusal is a data error under its code,
    and anything else a failure of the merge itself. -/
def failed (doing : String) (error : MergeError) : ConnectorError :=
  let text := error.text
  let message := s!"{doing}: {text}"
  match error with
  | .refused code _ => (ConnectorError.data message).withCode code.text
  | _ => ConnectorError.internal message

end Merge

end Rdlt
