import QPlusWeb.AncillaryData
import QPlusWeb.Runs
import QPlusWeb.UnixMessages

/-!
# Receiving messages from a unix socket

`Connection::readyReadHandler` appends the bytes and the file descriptors of each read to two buffers
and takes whole messages from their fronts.  The socket is a stream: a read ends anywhere, and the
descriptors of a message come with one of its bytes.
-/

namespace QPlusWeb.IPC

open ObjectLayout AncillaryData

/-! ### Messages that have been received -/

/-- The attachments are a stack. -/
structure ReceivedMessage where
  body : List UInt8
  attachments : List Attachment
  deriving DecidableEq

/-- The attachment and the others, if there is one. -/
def removeAttachment (attachments : List Attachment) : Option (Attachment × List Attachment) :=
  attachments.getLast?.map fun attachment => (attachment, attachments.dropLast)

/-- What so many calls of `removeAttachment` return. -/
def removeAttachments : ℕ → List Attachment → List Attachment
  | 0, _ => []
  | n + 1, attachments =>
    match removeAttachment attachments with
    | none => []
    | some removed => removed.1 :: removeAttachments n removed.2

theorem removeAttachments_reverse (attachments : List Attachment) :
    removeAttachments attachments.length attachments.reverse = attachments := by
  induction attachments with
  | nil => rfl
  | cons attachment attachments ih =>
    rw [List.length_cons,removeAttachments,removeAttachment,List.reverse_cons,
      List.getLast?_concat,List.dropLast_concat]
    simp [ih]

/-- The body and the attachments in the order in which they are removed. -/
def ReceivedMessage.contents (m : ReceivedMessage) : List UInt8 × List Attachment :=
  (m.body, removeAttachments m.attachments.length m.attachments)

def OutgoingMessage.contents (m : OutgoingMessage) : List UInt8 × List Attachment :=
  (m.body, m.attachments)

/-! ### The receiver -/

/-- `readBuffer` has the first `readBufferSize` bytes, `fileDescriptors` the whole vector. -/
structure Receiver where
  readBuffer : List UInt8
  fileDescriptors : List Int32
  fileDescriptorsSize : ℕ

/-- What `processMessage` does; a fault is an access outside the vector of descriptors, which happens
after the message has been delivered. -/
inductive Processed where
  | waits
  | faults (message : ReceivedMessage)
  | delivers (message : ReceivedMessage) (receiver : Receiver)

namespace Receiver

def create : Receiver := ⟨[], List.replicate attachmentMaxAmount 0, 0⟩

variable (r : Receiver)

def messageInfo : MessageInfo := .ofBytes r.readBuffer

/-- There is a whole message in the buffer. -/
def hasMessage : Bool :=
  decide (MessageInfo.sizeof ≤ r.readBuffer.length) &&
    decide (r.messageInfo.messageLength ≤ r.readBuffer.length)

def attachmentInfos : List AttachmentInfo :=
  (elements AttachmentInfo.sizeof r.messageInfo.attachmentCount.toNat
    (r.readBuffer.drop MessageInfo.sizeof)).map AttachmentInfo.ofBytes

def attachmentFileDescriptorCount : ℕ :=
  r.attachmentInfos.countP AttachmentInfo.hasDescriptor

/-- The loop over the attachments; it takes the descriptors from `fdIndex` on. -/
def takeAttachments (fileDescriptors : List Int32) : ℕ → List AttachmentInfo → List Attachment
  | _, [] => []
  | fdIndex, info :: infos =>
    let fd := if info.isNull then -1 else fileDescriptors.getD fdIndex (-1)
    let next := if info.isNull then fdIndex else fdIndex + 1
    match info.kind with
    | .mappedMemoryType => .mappedMemory fd info.size :: takeAttachments fileDescriptors next infos
    | .socketType => .socket fd :: takeAttachments fileDescriptors next infos
    | .uninitialized => .uninitialized :: takeAttachments fileDescriptors fdIndex infos

/-- `memmove` of `size` bytes from the descriptor with the index `source` to the front. -/
def moveDescriptors (fileDescriptors : List Int32) (source size : ℕ) : List Int32 :=
  let bytes := Arithmetic.int32.arrayBytes fileDescriptors
  Arithmetic.int32.ofArrayBytes fileDescriptors.length
    ((bytes.drop (source * Arithmetic.int32.size)).take size ++ bytes.drop size)

/-- The end of `processMessage`: the descriptors of the message are removed from the vector.  The
length is in bytes, but it is used as a number of descriptors. -/
def releaseDescriptors (count : ℕ) : Option Receiver :=
  if count = 0 then some r
  else if r.fileDescriptorsSize > count then
    let fileDescriptorsLength := count * Arithmetic.int32.size
    let size := r.fileDescriptorsSize - fileDescriptorsLength
    -- a difference below zero is a huge number of bytes
    if r.fileDescriptorsSize < fileDescriptorsLength ∨
        fileDescriptorsLength * Arithmetic.int32.size + size >
          r.fileDescriptors.length * Arithmetic.int32.size then none
    else
      some { r with
        fileDescriptors := moveDescriptors r.fileDescriptors fileDescriptorsLength size
        fileDescriptorsSize := size }
  else some { r with fileDescriptorsSize := 0 }

/-- The body: in the buffer behind the descriptions, or in the memory whose descriptor is the last one
of the message. -/
def messageBody (files : Int32 → List UInt8) (r : Receiver) : List UInt8 :=
  let bodySize := r.messageInfo.bodySize.toNat
  if r.messageInfo.isMessageBodyOutOfLine then
    (files (r.fileDescriptors.getD (r.attachmentFileDescriptorCount - 1) (-1))).take bodySize
  else
    (r.readBuffer.drop (MessageInfo.sizeof +
      r.messageInfo.attachmentCount.toNat * AttachmentInfo.sizeof)).take bodySize

/-- The number of attachments without the one for the body. -/
def attachmentCount : ℕ :=
  let attachmentCount := r.messageInfo.attachmentCount.toNat
  if r.messageInfo.isMessageBodyOutOfLine then attachmentCount - 1 else attachmentCount

/-- The attachment for the body is null. -/
def bodyIsMissing : Bool :=
  r.messageInfo.isMessageBodyOutOfLine && (r.attachmentInfos[r.attachmentCount]?.any (·.isNull))

def processMessage (files : Int32 → List UInt8) (r : Receiver) : Processed :=
  if r.hasMessage = false then .waits
  else
    let attachments := (takeAttachments r.fileDescriptors 0
      (r.attachmentInfos.take r.attachmentCount)).reverse
    if r.bodyIsMissing then .waits
    else
      let message := ⟨r.messageBody files, attachments⟩
      let rest := { r with readBuffer := r.readBuffer.drop r.messageInfo.messageLength }
      match rest.releaseDescriptors r.attachmentFileDescriptorCount with
      | none => .faults message
      | some released => .delivers message released

/-- A read appends to both buffers; there must be room for the descriptors. -/
def receive (bytes : List UInt8) (fileDescriptors : List Int32) : Option Receiver :=
  if r.fileDescriptorsSize + fileDescriptors.length > r.fileDescriptors.length then none
  else
    some
      { readBuffer := r.readBuffer ++ bytes
        fileDescriptors := r.fileDescriptors.take r.fileDescriptorsSize ++ fileDescriptors ++
          r.fileDescriptors.drop (r.fileDescriptorsSize + fileDescriptors.length)
        fileDescriptorsSize := r.fileDescriptorsSize + fileDescriptors.length }

end Receiver

/-! ### Runs -/

/-- A message that has been sent, and which of its bytes the descriptors come with. -/
structure SentMessage where
  message : OutgoingMessage
  carrier : ℕ
  carrier_lt : carrier < message.bytes.length

def SentMessage.stream (m : SentMessage) : List (UInt8 × List Int32) :=
  attach m.message.fileDescriptors m.message.bytes m.carrier

/-- `processing` says that the loop over the messages in the buffer has not ended yet. -/
structure Connection where
  sent : List SentMessage
  stream : List (UInt8 × List Int32)
  receiver : Receiver
  processing : Bool
  delivered : List ReceivedMessage
  closed : Bool
  faulted : Bool

namespace Connection

def create : Connection := ⟨[], [], .create, false, [], false, false⟩

inductive Action where
  | send (message : SentMessage)
  | read (count : ℕ)
  | processMessage

/-- The memory of a body that is sent out of line holds the body. -/
def bodyIsShared (files : Int32 → List UInt8) (m : OutgoingMessage) : Prop :=
  m.isMessageBodyOutOfLine = true → m.bodyDescriptor ≠ -1 ∧ files m.bodyDescriptor = m.body

instance (files : Int32 → List UInt8) (m : OutgoingMessage) : Decidable (bodyIsShared files m) :=
  inferInstanceAs (Decidable (_ → _))

def step (files : Int32 → List UInt8) (c : Connection) : Action → Option Connection
  | .send m =>
    if m.message.sendOutgoingMessage.isSome ∧ bodyIsShared files m.message then
      some { c with sent := c.sent ++ [m], stream := c.stream ++ m.stream }
    else none
  | .read count =>
    if c.closed ∨ c.faulted ∨ c.processing then none
    else
      let bytesToRead := messageMaxSize - c.receiver.readBuffer.length
      -- nothing is read into a full buffer, which looks like the end of the connection
      if bytesToRead = 0 then some { c with closed := true }
      else if 0 < count ∧ count ≤ bytesToRead ∧ count ≤ c.stream.length then
        match c.receiver.receive (payload (c.stream.take count))
          (carried (c.stream.take count)) with
        | none => some { c with faulted := true }
        | some receiver =>
          some { c with
            receiver := receiver
            stream := c.stream.drop count
            processing := true }
      else none
  | .processMessage =>
    if c.faulted ∨ !c.processing then none
    else
      match c.receiver.processMessage files with
      | .waits => some { c with processing := false }
      | .faults message => some { c with delivered := c.delivered ++ [message], faulted := true }
      | .delivers message receiver =>
        some { c with receiver := receiver, delivered := c.delivered ++ [message] }

end Connection

end QPlusWeb.IPC
