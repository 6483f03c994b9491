import Mathlib.Data.String.Defs

/-!
The exceptions that the crates share, with the texts under which they are printed.
-/
namespace Aios.Core

inductive AIOSException where
  | blockNotFound (id : String)
  | blockAlreadyRegistered (id : String)
  | invalidSignature (expected actual : String)
  | integrityCheckFailed (msg : String)
  | stateExtractionFailed (msg : String)
  | stateRestoreFailed (msg : String)
  | hotSwapFailed (msg : String)
  | rollbackFailed (msg : String)
  | ipcError (msg : String)
  | schedulerError (msg : String)
  | processNotFound (pid : UInt64)
  | processAlreadyExists (pid : UInt64)
  | permissionDenied (msg : String)
  | hardwareNotDetected (component : String)
  | invalidPayload (msg : String)
  | timeout (msg : String)
  | configurationError (msg : String)
  | serializationError (msg : String)
  | generic (msg : String)
  deriving DecidableEq

def AIOSException.display : AIOSException → String
  | .blockNotFound id => "Block not found: " ++ id
  | .blockAlreadyRegistered id => "Block already registered: " ++ id
  | .invalidSignature expected actual =>
    "Invalid signature: expected " ++ expected ++ ", got " ++ actual
  | .integrityCheckFailed msg => "Integrity check failed: " ++ msg
  | .stateExtractionFailed msg => "State extraction failed: " ++ msg
  | .stateRestoreFailed msg => "State restore failed: " ++ msg
  | .hotSwapFailed msg => "Hot swap failed: " ++ msg
  | .rollbackFailed msg => "Rollback failed: " ++ msg
  | .ipcError msg => "IPC error: " ++ msg
  | .schedulerError msg => "Scheduler error: " ++ msg
  | .processNotFound pid => "Process not found: " ++ toString pid
  | .processAlreadyExists pid => "Process already exists: " ++ toString pid
  | .permissionDenied msg => "Permission denied: " ++ msg
  | .hardwareNotDetected component => "Hardware not detected: " ++ component
  | .invalidPayload msg => "Invalid payload: " ++ msg
  | .timeout msg => "Timeout: " ++ msg
  | .configurationError msg => "Configuration error: " ++ msg
  | .serializationError msg => "Serialization error: " ++ msg
  | .generic msg => "Error: " ++ msg

end Aios.Core
