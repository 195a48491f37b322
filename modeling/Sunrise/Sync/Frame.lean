import Sunrise.Cbor.Record
import Sunrise.Lib.CborBytes
import Sunrise.Stamp
import Sunrise.Value

/-!
# The frames of the wire

A frame is an eleven-byte header and a payload: the magic, the version, the kind of the
message, the flags, and the length of the payload before compression. A writer refuses a
payload that would not fit, and a reader a frame that is too long, of another version or of
an unknown kind, or whose payload is not as long as it says.

* `encodeFrame`, `decodeFrame` — the writer and the reader.

## Main results

* `decodeFrame_of_encodeFrame` — what is written fits and is read back.
-/

namespace Sunrise

open Cbor (Item bigEndian ofBigEndian)

/-! ### Messages -/

/-- The kinds of messages. -/
inductive MsgKind where
  | hello | helloAck | opBatch | ack | nack | subscribe | streamUpdate | snapshotReq
  | snapshotResp | presenceBeacon | presenceUpdate | ping | pong | error | close
  | refreshToken | refreshTokenAck
deriving DecidableEq, Repr

namespace MsgKind

def asByte : MsgKind → ℕ
  | hello => 1
  | helloAck => 2
  | opBatch => 3
  | ack => 4
  | nack => 5
  | subscribe => 6
  | streamUpdate => 7
  | snapshotReq => 8
  | snapshotResp => 9
  | presenceBeacon => 10
  | presenceUpdate => 11
  | ping => 12
  | pong => 13
  | error => 14
  | close => 15
  | refreshToken => 18
  | refreshTokenAck => 19

def fromByte : ℕ → Option MsgKind
  | 1 => some hello
  | 2 => some helloAck
  | 3 => some opBatch
  | 4 => some ack
  | 5 => some nack
  | 6 => some subscribe
  | 7 => some streamUpdate
  | 8 => some snapshotReq
  | 9 => some snapshotResp
  | 10 => some presenceBeacon
  | 11 => some presenceUpdate
  | 12 => some ping
  | 13 => some pong
  | 14 => some error
  | 15 => some close
  | 18 => some refreshToken
  | 19 => some refreshTokenAck
  | _ => none

@[simp] theorem fromByte_asByte (k : MsgKind) : fromByte k.asByte = some k := by
  cases k <;> rfl

end MsgKind

/-! ### The header -/

def frameHeaderLen : ℕ := 11

/-- The greatest length of a frame. -/
def maxFrameBytes : ℕ := 4 * 1024 * 1024

/-- The greatest length of a payload before compression. -/
def maxDecompressedBytes : ℕ := 16 * 1024 * 1024

/-- The version this build speaks. -/
def wireProtoV : ℕ := 1

structure FrameHeader where
  version : ℕ
  msgKind : MsgKind
  zstd : Bool
  decompressedLen : ℕ
deriving DecidableEq

/-- Why a frame is refused. -/
inductive FrameError where
  | headerTruncated (len : ℕ)
  | badMagic
  | badVersion (wanted got : ℕ)
  | unknownMsgKind (byte : ℕ)
  | frameTooLarge (len : ℕ)
  | decompressBomb (len : ℕ)
  | decompressError
  /-- The payload is not as long as the header says. -/
  | payloadTruncated
deriving DecidableEq

/-- The compression. -/
structure Zstd where
  encodeAll : Bytes → Option Bytes
  decodeAll : Bytes → Option Bytes

variable (z : Zstd)

def encodeFrame (kind : MsgKind) (zstd : Bool) (payload : Bytes) : Except FrameError Bytes :=
  if maxDecompressedBytes < payload.length then .error (.decompressBomb payload.length)
  else
    match (if zstd then z.encodeAll payload else some payload) with
    | none => .error .decompressError
    | some body =>
      if maxFrameBytes < frameHeaderLen + body.length then
        .error (.frameTooLarge (frameHeaderLen + body.length))
      else
        -- a payload of at most 16 MiB has a length of four bytes
        .ok ([83, 82, 1] ++ bigEndian 2 wireProtoV ++ [kind.asByte, if zstd then 1 else 0] ++
          bigEndian 4 payload.length ++ body)

/-- The payload of a frame whose header has been read. -/
def decodePayload (zstd : Bool) (decompressedLen : ℕ) (body : Bytes) :
    Except FrameError Bytes :=
  if zstd then
    match z.decodeAll body with
    | none => .error .decompressError
    | some payload =>
      if payload.length ≠ decompressedLen then .error .payloadTruncated
      else if maxDecompressedBytes < payload.length then .error (.decompressBomb payload.length)
      else .ok payload
  else if body.length ≠ decompressedLen then .error .payloadTruncated
  else .ok body

def decodeFrame (buf : Bytes) : Except FrameError (FrameHeader × Bytes) :=
  match buf with
  | m₀ :: m₁ :: m₂ :: v₀ :: v₁ :: kindByte :: flags :: l₀ :: l₁ :: l₂ :: l₃ :: body =>
    if maxFrameBytes < buf.length then .error (.frameTooLarge buf.length)
    else if m₀ ≠ 83 ∨ m₁ ≠ 82 ∨ m₂ ≠ 1 then .error .badMagic
    else
      let version := ofBigEndian [v₀, v₁]
      if version ≠ wireProtoV then .error (.badVersion wireProtoV version)
      else
        match MsgKind.fromByte kindByte with
        | none => .error (.unknownMsgKind kindByte)
        | some kind =>
          -- a flag this build does not know is ignored
          let zstd := flags % 2 == 1
          let decompressedLen := ofBigEndian [l₀, l₁, l₂, l₃]
          if maxDecompressedBytes < decompressedLen then .error (.decompressBomb decompressedLen)
          else (decodePayload z zstd decompressedLen body).map fun payload =>
            (⟨version, kind, zstd, decompressedLen⟩, payload)
  | _ => .error (.headerTruncated buf.length)

variable {z} {kind : MsgKind} {payload frame : Bytes}

/-- **A plain payload is written where it fits with its header.** -/
theorem encodeFrame_eq_ok :
    encodeFrame z kind false payload = .ok frame ↔
      frameHeaderLen + payload.length ≤ maxFrameBytes ∧
        frame = [83, 82, 1] ++ bigEndian 2 wireProtoV ++ [kind.asByte, 0] ++
          bigEndian 4 payload.length ++ payload := by
  unfold encodeFrame
  by_cases hfits : frameHeaderLen + payload.length ≤ maxFrameBytes
  · have hsmall : ¬ maxDecompressedBytes < payload.length := by
      unfold maxDecompressedBytes
      unfold maxFrameBytes at hfits
      omega
    rw [if_neg hsmall, if_neg (by decide)]
    dsimp only
    rw [if_neg (not_lt.mpr hfits), and_iff_right hfits, Except.ok.injEq]
    exact eq_comm
  · constructor
    · intro h
      split at h
      · cases h
      · rw [if_neg (by decide)] at h
        dsimp only at h
        rw [if_pos (not_le.mp hfits)] at h
        cases h
    · rintro ⟨h, -⟩
      exact absurd h hfits

theorem length_of_encodeFrame (h : encodeFrame z kind false payload = .ok frame) :
    frame.length = frameHeaderLen + payload.length ∧ frame.length ≤ maxFrameBytes := by
  obtain ⟨hfits, rfl⟩ := encodeFrame_eq_ok.mp h
  have hlen : ([83, 82, 1] ++ bigEndian 2 wireProtoV ++ [kind.asByte, 0] ++
      bigEndian 4 payload.length ++ payload).length = frameHeaderLen + payload.length := by
    simp only [List.length_append, List.length_cons, List.length_nil, Cbor.length_bigEndian]
    rfl
  exact ⟨hlen, hlen ▸ hfits⟩

/-- **What is written is read back.** -/
theorem decodeFrame_of_encodeFrame (h : encodeFrame z kind false payload = .ok frame) :
    decodeFrame z frame = .ok (⟨wireProtoV, kind, false, payload.length⟩, payload) := by
  have hlen := (length_of_encodeFrame h).2
  obtain ⟨hfits, rfl⟩ := encodeFrame_eq_ok.mp h
  have hsmall : payload.length ≤ maxDecompressedBytes := by
    unfold maxDecompressedBytes
    unfold maxFrameBytes at hfits
    omega
  have hbytes : payload.length < 256 ^ 4 := by
    unfold maxDecompressedBytes at hsmall
    omega
  have hfour := Cbor.ofBigEndian_bigEndian hbytes
  simp only [bigEndian, List.cons_append, List.nil_append] at hfour hlen ⊢
  unfold decodeFrame
  dsimp only
  rw [if_neg (not_lt.mpr hlen), if_neg (by simp), if_neg (by decide),
    MsgKind.fromByte_asByte]
  dsimp only
  rw [hfour, if_neg (not_lt.mpr hsmall)]
  unfold decodePayload
  rw [if_neg (by decide), if_neg (by simp)]
  rfl

/-! ### Payloads -/

/-- A batch of sealed ops of one stream. -/
structure OpBatchPayload where
  ops : List Bytes
  batchId : ℕ
  streamId : StreamId
deriving DecidableEq

/-- How far a subscriber is with a device. -/
structure CursorEntry where
  deviceId : Device
  /-- The end of the prefix it holds of the device's ops. -/
  lastAppliedSeq : ℕ
deriving DecidableEq

/-- A stream to subscribe to. -/
structure SubscribeEntry where
  cursors : List CursorEntry
  streamId : StreamId
deriving DecidableEq

structure SubscribePayload where
  streams : List SubscribeEntry
deriving DecidableEq

def idItem (id : ℕ) : Item := .scalar (.bytes (bigEndian 16 id))

def OpBatchPayload.item (p : OpBatchPayload) : Item :=
  .map [(textItem "ops", .array (p.ops.map fun op => .scalar (.bytes op))),
    (textItem "batch_id", .scalar (.integer p.batchId)), (textItem "stream_id", idItem p.streamId)]

def CursorEntry.item (e : CursorEntry) : Item :=
  .map [(textItem "device_id", idItem e.deviceId),
    (textItem "last_applied_seq", .scalar (.integer e.lastAppliedSeq))]

/-- A subscription's stream as it is serialized. -/
def SubscribeEntry.item (e : SubscribeEntry) : Item :=
  .map [(textItem "cursors", .array (e.cursors.map CursorEntry.item)),
    (textItem "stream_id", idItem e.streamId)]

def SubscribePayload.item (p : SubscribePayload) : Item :=
  .map [(textItem "streams", .array (p.streams.map SubscribeEntry.item))]

def OpBatchPayload.encode (cbor : Cbor.Codec) (p : OpBatchPayload) : Bytes :=
  encodeCanonical cbor p.item

def SubscribePayload.encode (cbor : Cbor.Codec) (p : SubscribePayload) : Bytes :=
  encodeCanonical cbor p.item

end Sunrise
