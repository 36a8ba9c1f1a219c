/-
Fanout/FanoutError.lean

The errors of `fanout/fanout_error.rs`, which travel between the nodes of a cluster, and the part of
`fanout/fanout_message.rs` that the requesting side reads.

Design.  The envelope of a message is taken as parsed: of its header only the request id and the feature bits
matter to the node that receives an answer.
-/
import ValkeyTimeSeries.Common.Encoding

namespace ValkeyTimeSeries

inductive ErrorKind where
  | invalidMessage
  | nodeUnreachable
  | timeout
  | unknownMessageType
  | permissions
  | keyPermissions
  | serialization
  | badRequestId
  | internal
  | clusterMapMismatch
  | unsupportedFeatures
  | invalidDb
  | busy
  | custom
deriving DecidableEq, Repr

structure FanoutError where
  kind : ErrorKind
  /-- Extra context about the error. -/
  message : String
deriving DecidableEq, Repr

namespace ErrorKind

def tryFrom (value : BitVec 8) : Except String ErrorKind :=
  match value.toNat with
  | 0 => .ok invalidMessage
  | 1 => .ok nodeUnreachable
  | 2 => .ok timeout
  | 3 => .ok unknownMessageType
  | 4 => .ok permissions
  | 5 => .ok keyPermissions
  | 6 => .ok serialization
  | 7 => .ok badRequestId
  | 8 => .ok internal
  | 9 => .ok clusterMapMismatch
  | 10 => .ok unsupportedFeatures
  | 11 => .ok invalidDb
  | 12 => .ok busy
  | 255 => .ok custom
  | value => .error s!"Invalid error kind: {value}"

end ErrorKind

namespace FanoutError

def timeout : FanoutError := ⟨.timeout, ""⟩

def serialization (description : String) : FanoutError := ⟨.serialization, description⟩

def invalidMessage : FanoutError := ⟨.invalidMessage, ""⟩

def unsupportedFeatures : FanoutError := ⟨.unsupportedFeatures, ""⟩

def busy : FanoutError := ⟨.busy, ""⟩

def custom (description : String) : FanoutError := ⟨.custom, description⟩

def deserialize (buf : List (BitVec 8)) : Except String (FanoutError × List (BitVec 8)) := do
  match buf with
  | kind :: buf@(_ :: _) =>
    let kind ← ErrorKind.tryFrom kind
    let (extra, buf) ← (tryReadByteSlice buf).mapError fun _ => "Failed to read Error extra"
    let message ← match String.fromUTF8? ⟨(extra.map UInt8.ofBitVec).toArray⟩ with
      | some message => .ok message
      | none => .error "Invalid UTF-8 in Error extra"
    .ok (⟨kind, message⟩, buf)
  | _ => .error "Buffer too small to contain Error"

end FanoutError

/-- What the node that asked reads of a message; a node that cannot parse one drops it. -/
structure FanoutMessage where
  requestId : Nat
  requiredFeatures : BitVec 16
  buf : List (BitVec 8)
deriving DecidableEq, Repr

def supportedMessageFeatures : BitVec 16 := 0

def hasUnsupportedFeatures (requiredFeatures : BitVec 16) : Bool :=
  requiredFeatures &&& ~~~supportedMessageFeatures != 0

end ValkeyTimeSeries
