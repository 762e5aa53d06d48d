import QPlusWeb.ArgumentTypes

/-!
# Messages on a unix socket

`Connection::sendOutgoingMessage` sends a message as a header, a description of every attachment and
the body, together with the file descriptors of those attachments that are not null.  A body that
does not fit is put into shared memory, whose descriptor is the last attachment.

A file descriptor stands for the file that it refers to, so that it is the same in both processes.
-/

namespace QPlusWeb.IPC

open ObjectLayout List

def messageMaxSize : ℕ := 4096

def attachmentMaxAmount : ℕ := 255

/-! ### Attachments -/

/-- The file descriptor of a null attachment is `-1`. -/
inductive Attachment where
  | uninitialized
  | socket (fileDescriptor : Int32)
  | mappedMemory (fileDescriptor : Int32) (size : UInt64)
  deriving DecidableEq

inductive AttachmentKind where
  | uninitialized
  | socketType
  | mappedMemoryType
  deriving DecidableEq

namespace AttachmentKind

def code : AttachmentKind → UInt32
  | uninitialized => 0
  | socketType => 1
  | mappedMemoryType => 2

/-- A code that stands for no type is treated as an attachment that is not initialized. -/
def ofCode (n : UInt32) : AttachmentKind :=
  if n = 1 then socketType else if n = 2 then mappedMemoryType else uninitialized

theorem ofCode_code (kind : AttachmentKind) : ofCode kind.code = kind := by
  cases kind <;> rfl

end AttachmentKind

namespace Attachment

def fileDescriptor : Attachment → Int32
  | uninitialized => -1
  | socket fileDescriptor => fileDescriptor
  | mappedMemory fileDescriptor _ => fileDescriptor

def kind : Attachment → AttachmentKind
  | uninitialized => .uninitialized
  | socket _ => .socketType
  | mappedMemory _ _ => .mappedMemoryType

def size : Attachment → UInt64
  | mappedMemory _ size => size
  | _ => 0

def isNull (attachment : Attachment) : Bool := decide (attachment.fileDescriptor = -1)

end Attachment

/-! ### Descriptions -/

structure AttachmentInfo where
  kind : AttachmentKind
  size : UInt64
  isNull : Bool
  deriving DecidableEq

namespace AttachmentInfo

def sizeof : ℕ := 24

variable (info : AttachmentInfo)

/-- The fields, with the bytes between them that align them. -/
def bytes : List UInt8 :=
  Arithmetic.uint32.bytes info.kind.code ++ List.replicate 4 0 ++
    Arithmetic.uint64.bytes info.size ++ Arithmetic.bool.bytes info.isNull ++ List.replicate 7 0

def ofBytes (bytes : List UInt8) : AttachmentInfo :=
  ⟨.ofCode (Arithmetic.uint32.ofBytes (bytes.take 4)),
    Arithmetic.uint64.ofBytes ((bytes.drop 8).take 8),
    Arithmetic.bool.ofBytes ((bytes.drop 16).take 1)⟩

/-- There is a descriptor for the attachment. -/
def hasDescriptor : Bool :=
  match info.kind with
  | .mappedMemoryType | .socketType => !info.isNull
  | .uninitialized => false

@[simp] theorem length_bytes : info.bytes.length = sizeof := by
  simp [bytes,sizeof,Arithmetic.size]

theorem ofBytes_bytes : ofBytes info.bytes = info := by
  have hc : (Arithmetic.uint32.bytes info.kind.code).length = 4 := Arithmetic.length_bytes ..
  have hs : (Arithmetic.uint64.bytes info.size).length = 8 := Arithmetic.length_bytes ..
  have hnull : (Arithmetic.bool.bytes info.isNull).length = 1 := Arithmetic.length_bytes ..
  have hskip : ∀ n ≥ 4, (Arithmetic.uint32.bytes info.kind.code).drop n = [] := fun n hn =>
    drop_of_length_le (hc.trans_le hn)
  simp [ofBytes,bytes,drop_append,hc,hs,hnull,hskip,
    Arithmetic.ofBytes_bytes,AttachmentKind.ofCode_code]

end AttachmentInfo

/-- The description of an attachment that is sent. -/
def Attachment.info (attachment : Attachment) : AttachmentInfo :=
  ⟨attachment.kind, attachment.size, attachment.isNull⟩

structure MessageInfo where
  bodySize : UInt64
  attachmentCount : UInt64
  isMessageBodyOutOfLine : Bool
  deriving DecidableEq

namespace MessageInfo

def sizeof : ℕ := 24

variable (info : MessageInfo)

def bytes : List UInt8 :=
  Arithmetic.uint64.bytes info.bodySize ++ Arithmetic.uint64.bytes info.attachmentCount ++
    Arithmetic.bool.bytes info.isMessageBodyOutOfLine ++ List.replicate 7 0

def ofBytes (bytes : List UInt8) : MessageInfo :=
  ⟨Arithmetic.uint64.ofBytes (bytes.take 8), Arithmetic.uint64.ofBytes ((bytes.drop 8).take 8),
    Arithmetic.bool.ofBytes ((bytes.drop 16).take 1)⟩

def messageLength : ℕ :=
  (sizeof + info.attachmentCount.toNat * AttachmentInfo.sizeof +
    if info.isMessageBodyOutOfLine then 0 else info.bodySize.toNat) % 2 ^ 64

@[simp] theorem length_bytes : info.bytes.length = sizeof := by
  simp [bytes,sizeof,Arithmetic.size]

theorem ofBytes_bytes_append (rest : List UInt8) : ofBytes (info.bytes++rest) = info := by
  have hb : (Arithmetic.uint64.bytes info.bodySize).length = 8 := Arithmetic.length_bytes ..
  have hc : (Arithmetic.uint64.bytes info.attachmentCount).length = 8 := Arithmetic.length_bytes ..
  have hf : (Arithmetic.bool.bytes info.isMessageBodyOutOfLine).length = 1 :=
    Arithmetic.length_bytes ..
  have hs : ∀ n ≥ 8, (Arithmetic.uint64.bytes info.bodySize).drop n = [] := fun n hn =>
    drop_of_length_le (hb.trans_le hn)
  simp [ofBytes,bytes,drop_append,hb,hc,hf,hs,Arithmetic.ofBytes_bytes]

end MessageInfo

/-! ### Sending -/

/-- A message, and the descriptor of the shared memory that is made for its body if that is sent out
of line. -/
structure OutgoingMessage where
  body : List UInt8
  attachments : List Attachment
  bodyDescriptor : Int32
  body_length : body.length < 2 ^ 64
  initialized : .uninitialized ∉ attachments

namespace OutgoingMessage

variable (m : OutgoingMessage)

/-- The message is sent with its body out of line. -/
def isMessageBodyOutOfLine : Bool :=
  let messageSizeWithBodyInline :=
    MessageInfo.sizeof + m.attachments.length * AttachmentInfo.sizeof + m.body.length
  decide (messageSizeWithBodyInline > messageMaxSize) && decide (m.body.length ≠ 0)

/-- The attachments, followed by the one for the body. -/
def allAttachments : List Attachment :=
  if m.isMessageBodyOutOfLine then
    m.attachments ++ [.mappedMemory m.bodyDescriptor (.ofNat m.body.length)]
  else m.attachments

def messageInfo : MessageInfo :=
  ⟨.ofNat m.body.length, .ofNat m.allAttachments.length, m.isMessageBodyOutOfLine⟩

def bytes : List UInt8 :=
  m.messageInfo.bytes ++ (m.allAttachments.map (·.info.bytes)).flatten ++
    if m.isMessageBodyOutOfLine then [] else m.body

def fileDescriptors : List Int32 :=
  (m.allAttachments.map (·.fileDescriptor)).filter (· ≠ -1)

/-- The bytes and the descriptors that are sent, unless there are too many attachments. -/
def sendOutgoingMessage : Option (List UInt8 × List Int32) :=
  if m.attachments.length > attachmentMaxAmount - 1 then none
  else some (m.bytes, m.fileDescriptors)

/-! ### The parts of a message -/

section
variable {m : OutgoingMessage}

theorem length_of_mem_infos :
    ∀ object ∈ m.allAttachments.map (·.info.bytes), object.length = AttachmentInfo.sizeof := by
  intro object ho
  obtain ⟨attachment,-,rfl⟩ := mem_map.mp ho
  exact attachment.info.length_bytes

theorem length_head : (m.messageInfo.bytes++(m.allAttachments.map (·.info.bytes)).flatten).length =
    MessageInfo.sizeof+m.allAttachments.length*AttachmentInfo.sizeof := by
  rw [length_append,MessageInfo.length_bytes,length_flatten_of_forall length_of_mem_infos,
    length_map]

theorem length_bytes : m.bytes.length = MessageInfo.sizeof +
    m.allAttachments.length*AttachmentInfo.sizeof +
      if m.isMessageBodyOutOfLine then 0 else m.body.length := by
  rw [bytes,length_append,length_head]
  split <;> rfl

/-- The descriptor of the body is the last one. -/
theorem fileDescriptors_of_outOfLine (h : m.isMessageBodyOutOfLine) (hb : m.bodyDescriptor ≠ -1) :
    m.fileDescriptors =
      (m.attachments.map (·.fileDescriptor)).filter (· ≠ -1)++[m.bodyDescriptor] := by
  rw [fileDescriptors,allAttachments,if_pos h,map_append,filter_append]
  simp [Attachment.fileDescriptor,hb]

theorem toNat_attachmentCount (h : m.bytes.length < 2^64) :
    m.messageInfo.attachmentCount.toNat = m.allAttachments.length := by
  have hlt : m.allAttachments.length < 2^64 := by
    rw [length_bytes,AttachmentInfo.sizeof] at h
    omega
  exact UInt64.toNat_ofNat_of_lt' hlt

theorem toNat_bodySize : m.messageInfo.bodySize.toNat = m.body.length :=
  UInt64.toNat_ofNat_of_lt' m.body_length

/-- The length that the receiver computes is the length of the message. -/
theorem messageLength_messageInfo (h : m.bytes.length < 2^64) :
    m.messageInfo.messageLength = m.bytes.length := by
  have hl := m.length_bytes
  have hc := toNat_attachmentCount h
  rw [hl] at h ⊢
  rw [MessageInfo.messageLength,hc,toNat_bodySize]
  exact Nat.mod_eq_of_lt h

theorem uninitialized_not_mem_allAttachments : .uninitialized ∉ m.allAttachments := by
  unfold allAttachments
  split
  · simpa using m.initialized
  · exact m.initialized

theorem countP_hasDescriptor :
    (m.allAttachments.map Attachment.info).countP AttachmentInfo.hasDescriptor =
      m.fileDescriptors.length := by
  rw [fileDescriptors,← countP_eq_length_filter,countP_map,countP_map]
  refine countP_congr fun attachment ha => ?_
  cases attachment with
  | uninitialized => exact absurd ha m.uninitialized_not_mem_allAttachments
  | socket fileDescriptor | mappedMemory fileDescriptor size =>
    simp [Attachment.info,AttachmentInfo.hasDescriptor,Attachment.kind,Attachment.isNull]

end

end OutgoingMessage

end QPlusWeb.IPC
