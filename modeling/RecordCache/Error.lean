import RecordCache.Key
import RecordCache.Text.Decimal
import RecordCache.Text.Quoted

/-!
# Errors

What can go wrong, by cause, and the message for each.

* `StorageError`: failures of a tier, which are reported and not returned;
* `PatternError`: a removal pattern that cannot be used;
* `ConfigError`: a configuration that makes no sense;
* `CacheError` joins them, and `CacheError.message` words them.
-/

namespace RecordCache

/-- A failure of the storage behind a tier. -/
inductive StorageError
  | openFailed (path reason : String)
  | queryFailed (reason : String)
  | transactionFailed (reason : String)
  | corruptedRecord (key : Key) (reason : String)
  | serializationFailed (reason : String)
  | lockPoisoned
  deriving DecidableEq, Inhabited

/-- A removal pattern that cannot be used. -/
inductive PatternError
  | invalidEscape (pattern : String) (position : Nat) (escaped : Char)
  | danglingEscape (pattern : String)
  | tooLarge (pattern reason : String)
  deriving DecidableEq, Inhabited

/-- A configuration that makes no sense. -/
inductive ConfigError
  | missingRequired (field : String)
  | invalidValue (field value reason : String)
  deriving DecidableEq, Inhabited

/-- Any error of the cache. -/
inductive CacheError
  | storage (error : StorageError)
  | pattern (error : PatternError)
  | config (error : ConfigError)
  deriving DecidableEq, Inhabited

/-- The message for a failure of the storage. -/
def StorageError.message : StorageError → String
  | openFailed path reason => "Failed to open store at " ++ path ++ ": " ++ reason
  | queryFailed reason => "Query failed: " ++ reason
  | transactionFailed reason => "Transaction failed: " ++ reason
  | corruptedRecord key reason => "Corrupted record " ++ key.text ++ ": " ++ reason
  | serializationFailed reason => "Serialization failed: " ++ reason
  | lockPoisoned => "Storage lock poisoned"

/-- The message for an unusable pattern. -/
def PatternError.message : PatternError → String
  | invalidEscape pattern position escaped =>
    "Invalid escape sequence '\\" ++ String.ofList [escaped] ++ "' at position " ++
      String.ofList (Text.decimal position) ++ " in pattern " ++ Text.quoted pattern
  | danglingEscape pattern => "Dangling escape at end of pattern " ++ Text.quoted pattern
  | tooLarge pattern reason =>
    "Pattern " ++ Text.quoted pattern ++ " could not be compiled: " ++ reason

/-- The message for a bad configuration. -/
def ConfigError.message : ConfigError → String
  | missingRequired field => "Missing required configuration field: " ++ field
  | invalidValue field value reason =>
    "Invalid value for " ++ field ++ ": " ++ value ++ " - " ++ reason

/-- The message for an error, with the part of the cache it concerns in front. -/
def CacheError.message : CacheError → String
  | storage error => "Storage error: " ++ error.message
  | pattern error => "Pattern error: " ++ error.message
  | config error => "Config error: " ++ error.message

end RecordCache
