import NpmFollower.PostgresDb.Json

/-! # The Redis commands of the blob index

The keyspace holds strings and one hash. A text in Redis is the JSON value that
it is the text of. A command on a key of the other type answers with an error,
and so does an empty `MSET`.
-/

namespace NpmFollower.BlobIdxServer

open Std PostgresDb

inductive RedisValue where
  | string (text : Value)
  | hash (fields : ExtTreeMap UInt32 Value)

abbrev Redis := ExtTreeMap String RedisValue

/-- The key under which the file pool is stored. -/
def filePoolKey : String := "__file_pool__"

inductive Command where
  | get (key : String)
  /-- `HSET __file_pool__` -/
  | hset (fileId : UInt32) (text : Value)
  | setMultiple (items : List (String × Value))

inductive Reply where
  | text (value : Option Value)
  | ok
  | error

namespace Redis

def setMultiple (r : Redis) (items : List (String × Value)) : Redis :=
  items.foldl (fun r e => r.insert e.1 (.string e.2)) r

def execute (r : Redis) : Command → Redis × Reply
  | .get key =>
    match r[key]? with
    | none => (r, .text none)
    | some (.string text) => (r, .text (some text))
    | some (.hash _) => (r, .error)
  | .hset fileId text =>
    match r[filePoolKey]? with
    | none => (r.insert filePoolKey (.hash (ExtTreeMap.insert ∅ fileId text)), .ok)
    | some (.hash fields) => (r.insert filePoolKey (.hash (fields.insert fileId text)), .ok)
    | some (.string _) => (r, .error)
  | .setMultiple items => if items.isEmpty then (r, .error) else (r.setMultiple items, .ok)

end Redis

end NpmFollower.BlobIdxServer
