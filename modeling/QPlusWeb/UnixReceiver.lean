import QPlusWeb.UnixConnection

/-!
# The first message of the buffer

What `Connection::processMessage` finds at the front of its buffers if a message has been received as
a whole: its header, its attachments with their own descriptors, and its body.
-/

namespace QPlusWeb.IPC

open ObjectLayout List Bool OutgoingMessage Attachment

namespace Receiver

section FirstMessage
variable {files : Int32 → List UInt8} {r : Receiver} {m : OutgoingMessage} {rest : List UInt8}
  {restDescriptors : List Int32}

section
variable (unread : List UInt8) (h : r.readBuffer ++ unread = m.bytes ++ rest)
include unread h

/-- The header is read as soon as it is there. -/
theorem messageInfo_eq
    (hl : MessageInfo.sizeof ≤ r.readBuffer.length) : r.messageInfo = m.messageInfo := by
  have hh : m.messageInfo.bytes <+: r.readBuffer := by
    have hleft : m.messageInfo.bytes <+: r.readBuffer++unread := by
      rw [h,bytes,append_assoc,append_assoc]
      exact prefix_append _ _
    refine prefix_of_prefix_length_le hleft (prefix_append _ _) ?_
    exact hl
  obtain ⟨tail,ht⟩ := hh
  rw [messageInfo,← ht,MessageInfo.ofBytes_bytes_append]

/-- A message that is not there as a whole is waited for. -/
theorem hasMessage_eq_false
    (hm : m.bytes.length < 2^64) (hl : r.readBuffer.length < m.bytes.length) :
    r.hasMessage = false := by
  rw [hasMessage,and_eq_false_iff,decide_eq_false_iff_not,decide_eq_false_iff_not]
  by_cases hh : MessageInfo.sizeof ≤ r.readBuffer.length
  · right
    rw [messageInfo_eq unread h hh,messageLength_messageInfo hm]
    omega
  · exact .inl hh

end

section
variable (h : r.readBuffer = m.bytes ++ rest)
include h

theorem messageInfo_of_append : r.messageInfo = m.messageInfo := by
  refine messageInfo_eq [] (by rw [append_nil,h]) ?_
  rw [h,length_append,length_bytes]
  omega

theorem attachmentInfos_eq (hm : m.bytes.length < 2^64) :
    r.attachmentInfos = m.allAttachments.map info := by
  have he := elements_flatten_append m.length_of_mem_infos
    ((if m.isMessageBodyOutOfLine then [] else m.body)++rest)
  rw [length_map] at he
  rw [attachmentInfos,messageInfo_of_append h,toNat_attachmentCount hm,h,
    bytes,append_assoc,append_assoc,
    drop_left' m.messageInfo.length_bytes,he,map_map]
  exact map_congr_left fun attachment _ => attachment.info.ofBytes_bytes

theorem attachmentFileDescriptorCount_eq (hm : m.bytes.length < 2^64) :
    r.attachmentFileDescriptorCount = m.fileDescriptors.length := by
  rw [attachmentFileDescriptorCount,attachmentInfos_eq h hm,countP_hasDescriptor]

end

section
variable {fileDescriptors : List Int32} {fdIndex : ℕ} {attachment : Attachment}

theorem takeAttachments_of_null (h : attachment ≠ .uninitialized) (hn : attachment.isNull)
    (infos : List AttachmentInfo) :
    takeAttachments fileDescriptors fdIndex (attachment.info::infos) =
      attachment::takeAttachments fileDescriptors fdIndex infos := by
  have hfd : attachment.fileDescriptor = -1 := of_decide_eq_true hn
  cases attachment with
  | uninitialized => exact absurd rfl h
  | socket fd | mappedMemory fd size =>
    obtain rfl : fd = -1 := hfd
    rfl

theorem takeAttachments_of_descriptor (h : attachment ≠ .uninitialized)
    (hn : attachment.isNull = false)
    (hg : fileDescriptors.getD fdIndex (-1) = attachment.fileDescriptor)
    (infos : List AttachmentInfo) :
    takeAttachments fileDescriptors fdIndex (attachment.info::infos) =
      attachment::takeAttachments fileDescriptors (fdIndex+1) infos := by
  cases attachment with
  | uninitialized => exact absurd rfl h
  | socket fd =>
    simp only [takeAttachments,info,kind,hn,hg,if_false,false_eq_true,Attachment.fileDescriptor]
  | mappedMemory fd size =>
    simp only [takeAttachments,info,kind,hn,hg,if_false,
      false_eq_true,Attachment.fileDescriptor,Attachment.size]

/-- The loop over the attachments takes each descriptor for the attachment that it was sent for. -/
theorem takeAttachments_info {attachments : List Attachment} (h : .uninitialized ∉ attachments)
    (before after : List Int32) :
    takeAttachments (before++((attachments.map (·.fileDescriptor)).filter (· ≠ -1)++after))
      before.length (attachments.map info) = attachments := by
  induction attachments generalizing before with
  | nil => rfl
  | cons attachment attachments ih =>
    have hne : attachment ≠ .uninitialized := fun heq => h (heq ▸ mem_cons_self)
    have hr : .uninitialized ∉ attachments := fun hmem => h (mem_cons_of_mem _ hmem)
    rw [map_cons,map_cons]
    by_cases hfd : attachment.fileDescriptor = -1
    · have hn : attachment.isNull := decide_eq_true hfd
      rw [filter_cons_of_neg (by simpa using hfd),takeAttachments_of_null hne hn,ih hr]
    · have hn : attachment.isNull = false := decide_eq_false hfd
      rw [filter_cons_of_pos (by simpa using hfd),takeAttachments_of_descriptor hne hn (by simp)]
      have hmove := ih hr (before++[attachment.fileDescriptor])
      rw [length_append,length_singleton,append_assoc,singleton_append] at hmove
      rw [cons_append,hmove]

end

section
variable (h : r.readBuffer = m.bytes ++ rest)
include h

section
variable (hm : m.bytes.length < 2 ^ 64)
include hm

section
variable (hdescriptors : r.fileDescriptors = m.fileDescriptors ++ restDescriptors)
include hdescriptors

/-- What is delivered of a message that is there as a whole, with its descriptors. -/
theorem attachments_eq :
    takeAttachments r.fileDescriptors 0 (r.attachmentInfos.take r.attachmentCount) =
      m.attachments := by
  have hi : r.attachmentInfos.take r.attachmentCount = m.attachments.map info := by
    rw [attachmentInfos_eq h hm,attachmentCount,messageInfo_of_append h,
      toNat_attachmentCount hm,← map_take]
    simp only [OutgoingMessage.messageInfo,OutgoingMessage.allAttachments]
    split
    · simp
    · rw [take_length]
  obtain ⟨after,ha⟩ : ∃ after, r.fileDescriptors =
      (m.attachments.map (·.fileDescriptor)).filter (· ≠ -1)++after := by
    rw [hdescriptors,OutgoingMessage.fileDescriptors,OutgoingMessage.allAttachments]
    split
    · rw [map_append,filter_append,append_assoc]
      exact ⟨_,rfl⟩
    · exact ⟨_,rfl⟩
  have ht := takeAttachments_info m.initialized [] after
  rw [nil_append,← ha] at ht
  rw [hi]
  exact ht

theorem messageBody_eq (hs : Connection.bodyIsShared files m) : r.messageBody files = m.body := by
  rw [messageBody,messageInfo_of_append h,toNat_bodySize,
    toNat_attachmentCount hm,attachmentFileDescriptorCount_eq h hm,hdescriptors]
  by_cases hl : m.isMessageBodyOutOfLine
  · obtain ⟨hbody,hf⟩ := hs hl
    have hlast : (m.fileDescriptors++restDescriptors).getD (m.fileDescriptors.length-1) (-1) =
        m.bodyDescriptor := by
      simp [fileDescriptors_of_outOfLine hl hbody]
    simp only [OutgoingMessage.messageInfo,hl,if_true,hlast,hf,take_length]
  · have hb : r.readBuffer = m.messageInfo.bytes ++
        (m.allAttachments.map (·.info.bytes)).flatten++(m.body++rest) := by
      rw [h,bytes,if_neg hl,append_assoc]
    simp only [OutgoingMessage.messageInfo,hl,false_eq_true,if_false]
    rw [hb,drop_left' length_head,take_left' rfl]

end

theorem bodyIsMissing_eq_false (hs : Connection.bodyIsShared files m) :
    r.bodyIsMissing = false := by
  rw [bodyIsMissing,attachmentCount,attachmentInfos_eq h hm,messageInfo_of_append h,
    toNat_attachmentCount hm]
  by_cases hl : m.isMessageBodyOutOfLine
  · have hb := (hs hl).1
    simp [OutgoingMessage.messageInfo,OutgoingMessage.allAttachments,hl,info,
      isNull,Attachment.fileDescriptor,hb]
  · simp [OutgoingMessage.messageInfo,hl]

/-- The first message is delivered; its descriptors are the only ones, or it has none. -/
theorem processMessage_eq (hdescriptors : r.fileDescriptors = m.fileDescriptors++restDescriptors)
    (hs : Connection.bodyIsShared files m)
    (hsize : m.fileDescriptors = [] ∨ r.fileDescriptorsSize = m.fileDescriptors.length) :
    ∃ message, message.contents = m.contents ∧ r.processMessage files = .delivers message {r with
          readBuffer := rest
          fileDescriptorsSize :=
            if m.fileDescriptors = [] then r.fileDescriptorsSize else 0} := by
  have hi := messageInfo_of_append h
  have hl := messageLength_messageInfo hm
  have hmsg : r.hasMessage := by
    rw [hasMessage,and_eq_true,decide_eq_true_iff,decide_eq_true_iff,hi,hl,h,
      length_append,m.length_bytes]
    omega
  refine ⟨⟨m.body,m.attachments.reverse⟩,?_,?_⟩
  · rw [ReceivedMessage.contents,length_reverse,removeAttachments_reverse]
    rfl
  · have hd : r.readBuffer.drop m.bytes.length = rest := by rw [h,drop_left' rfl]
    simp only [processMessage,hmsg,bodyIsMissing_eq_false h hm hs,true_eq_false,
      false_eq_true,if_false,attachmentFileDescriptorCount_eq h hm,hi,hl,hd,
      messageBody_eq h hm hdescriptors hs,attachments_eq h hm hdescriptors]
    by_cases hn : m.fileDescriptors = []
    · simp [releaseDescriptors,hn]
    · have hsize := hsize.resolve_left hn
      simp [releaseDescriptors,hn,hsize]

end

end

end FirstMessage

end Receiver

end QPlusWeb.IPC
