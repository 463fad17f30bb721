import SglJax.Foundation.LimitedDict
import SglJax.Foundation.Utf8

/-! The detokenizer: for each message of the scheduler it decodes the ids of every
request that have not been read yet, and keeps per request how far it has read. -/
namespace SglJax.Managers.Detokenizer

open Utf8 (replacement)

/-- The two settings of a decode, `skip_special_tokens` and
`spaces_between_special_tokens`. -/
structure Flags where
  skipSpecialTokens : Bool
  spacesBetweenSpecialTokens : Bool
deriving DecidableEq, Repr

structure Tokenizer where
  decode : Flags → List Nat → Text
  allSpecialIds : List Nat

/-- `matched` of a finish reason. -/
inductive Matched where
  | token (id : Nat)
  | str (text : Text)
deriving DecidableEq, Repr

structure FinishReason where
  matched : Option Matched
deriving DecidableEq, Repr

/-- One request in a message. -/
structure Entry where
  rid : String
  finishedReason : Option FinishReason
  decodedText : Text
  decodeIds : List Nat
  readOffset : Nat
  flags : Flags
  noStopTrim : Bool
deriving DecidableEq, Repr

structure DecodeStatus where
  decodedText : Text
  decodeIds : List Nat
  surrOffset : Nat
  readOffset : Nat
  sentOffset : Nat
deriving DecidableEq, Repr

/-- What is sent on for a request. -/
structure Output where
  rid : String
  outputStr : Text
  outputIds : List Nat
deriving DecidableEq, Repr

/-! ### Stops -/

namespace Entry

variable (entry : Entry)

/-- The stop that is trimmed. The token 0 and the empty text count as none. -/
def stop : Option Matched :=
  if entry.noStopTrim then none
  else
    match entry.finishedReason with
    | none => none
    | some reason =>
      reason.matched.filter fun
        | .token id => id ≠ 0
        | .str text => text ≠ []

/-- The entry ends with a token that is trimmed. -/
def stopsAtToken : Bool :=
  match entry.stop with
  | some (.token _) => true
  | _ => false

/-- `trim_matched_stop` on ids; `none` is the failed assertion. -/
def trimIds (ids : List Nat) : Option (List Nat) :=
  if entry.stopsAtToken then if ids = [] then none else some ids.dropLast else some ids

/-- `trim_matched_stop` on a text -/
def trimText (text : Text) : Text :=
  match entry.stop with
  | some (.str matched) =>
    match Text.find matched text with
    | some pos => text.take pos
    | none => text
  | _ => text

end Entry

/-! ### One request -/

/-- `find_printable_text`. A text without surrogates survives the round trip through
UTF-8. -/
def findPrintableText (text : Text) : Text := text

/-- `len(new_text) > 0 and not new_text.endswith("�")` -/
def isComplete (newText : Text) : Bool :=
  newText ≠ [] && newText.getLast? ≠ some replacement

def processSpecialTokensSpaces (ids : List Nat) (skipSpecialTokens : Bool)
    (allSpecialIds : List Nat) : List Nat :=
  if skipSpecialTokens then ids.filter fun id => !allSpecialIds.contains id else ids

namespace DecodeStatus

def new (entry : Entry) : DecodeStatus where
  decodedText := entry.decodedText
  decodeIds := entry.decodeIds
  surrOffset := 0
  readOffset := entry.readOffset
  sentOffset := 0

/-- The status once the ids of the entry have come in. -/
def receive (entry : Entry) : Option DecodeStatus → DecodeStatus
  | none => new entry
  | some s => { s with decodeIds := s.decodeIds ++ entry.decodeIds }

variable (s : DecodeStatus)

def readIds (entry : Entry) : Option (List Nat) :=
  entry.trimIds (s.decodeIds.drop s.surrOffset)

def surrIds : List Nat := (s.decodeIds.drop s.surrOffset).take (s.readOffset - s.surrOffset)

/-- All that was received is read. -/
def advance (newText : Text) : DecodeStatus :=
  { s with
    decodedText := s.decodedText ++ newText
    surrOffset := s.readOffset
    readOffset := s.decodeIds.length }

/-- The ids to decode for an entry, those around them included. -/
def ids (entry : Entry) : Option (List Nat × List Nat) :=
  (s.readIds entry).map fun readIds => (readIds, s.surrIds)

end DecodeStatus

/-- What the read ids say beyond the surrounding ones. -/
def newText (tokenizer : Tokenizer) (flags : Flags) (readIds surrIds : List Nat) : Text :=
  (tokenizer.decode flags readIds).drop (tokenizer.decode flags surrIds).length

/-- The ids are read unless the request is finished or its text is not complete. -/
def Entry.advances (entry : Entry) (newText : Text) : Bool :=
  entry.finishedReason.isNone && isComplete newText

/-- The body of the last loop, for a given new text. -/
def DecodeStatus.emit (s : DecodeStatus) (entry : Entry) (newText : Text) :
    DecodeStatus × Text :=
  let after := if entry.advances newText then s.advance newText else s
  let rest :=
    if entry.advances newText then []
    else if entry.finishedReason.isNone then findPrintableText newText
    else newText
  let outputStr := entry.trimText (after.decodedText ++ rest)
  ({ after with sentOffset := outputStr.length }, outputStr.drop s.sentOffset)

/-- `output_ids_list.append(...)` -/
def newIds (tokenizer : Tokenizer) (entry : Entry) (readIds surrIds : List Nat) : List Nat :=
  processSpecialTokensSpaces (readIds.drop surrIds.length) entry.flags.skipSpecialTokens
    tokenizer.allSpecialIds

/-- What is sent for the ids that are decoded. -/
def DecodeStatus.send (s : DecodeStatus) (tokenizer : Tokenizer) (flags : Flags) (entry : Entry)
    (ids : List Nat × List Nat) : DecodeStatus × Output :=
  let sent := s.emit entry (newText tokenizer flags ids.1 ids.2)
  (sent.1, ⟨entry.rid, sent.2, newIds tokenizer entry ids.1 ids.2⟩)

/-- A request in a message that is decoded with the given settings. -/
def step (tokenizer : Tokenizer) (flags : Flags) (status : Option DecodeStatus) (entry : Entry) :
    Option (DecodeStatus × Output) :=
  let s := DecodeStatus.receive entry status
  (s.ids entry).map (s.send tokenizer flags entry)

/-! ### Messages -/

abbrev Table := LimitedDict String DecodeStatus

/-- A status that is in the table is changed in place. -/
def store (table : Table) (rid : String) (s : DecodeStatus) : Table :=
  if (table.get rid).isSome then table.put rid s else table.set rid s

/-- The first loop: the table, and the ids to decode for each entry. -/
def receiveAll : Table → List Entry → Option (Table × List (List Nat × List Nat))
  | table, [] => some (table, [])
  | table, entry :: rest =>
    let s := DecodeStatus.receive entry (table.get entry.rid)
    match s.ids entry with
    | none => none
    | some ids =>
      (receiveAll (store table entry.rid s) rest).map fun (table, reads) => (table, ids :: reads)

/-- The last loop; `none` is the request whose status was evicted. -/
def emitAll (tokenizer : Tokenizer) (flags : Flags) :
    Table → List (Entry × List Nat × List Nat) → Option (Table × List Output)
  | table, [] => some (table, [])
  | table, (entry, ids) :: rest =>
    match table.get entry.rid with
    | none => none
    | some s =>
      let sent := s.send tokenizer flags entry ids
      (emitAll tokenizer flags (table.put entry.rid sent.1) rest).map fun (table, outputs) =>
        (table, sent.2 :: outputs)

/-- `handle_batch_token_id_out`. Both decodes take the settings of the first request. -/
def handleBatchTokenIdOut (tokenizer : Tokenizer) (table : Table) (entries : List Entry) :
    Option (Table × List Output) :=
  match entries with
  | [] => none
  | first :: _ =>
    match receiveAll table entries with
    | none => none
    | some (table, reads) => emitAll tokenizer first.flags table (entries.zip reads)

/-- A history of messages. -/
def handleAll (tokenizer : Tokenizer) : Table → List (List Entry) → Option (List (List Output))
  | _, [] => some []
  | table, entries :: rest =>
    match handleBatchTokenIdOut tokenizer table entries with
    | none => none
    | some (table, outputs) => (handleAll tokenizer table rest).map (outputs :: ·)

end SglJax.Managers.Detokenizer
