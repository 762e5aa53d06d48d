import QPlusWeb.UnixReceiver

/-!
# Messages are delivered as they were sent

As long as the descriptors of one message at most are in the buffer, the receiver takes apart what it
reads into the messages that were sent, each with its own descriptors.  When there are descriptors of
a later message, those of the first one are removed by a number of bytes and not by their number.
-/

namespace QPlusWeb.IPC

open AncillaryData Runs List

namespace SentMessage
variable {m : SentMessage}

theorem payload_stream : payload m.stream = m.message.bytes := payload_attach ..

theorem carried_stream : carried m.stream = m.message.fileDescriptors := carried_attach m.carrier_lt

theorem length_stream : m.stream.length = m.message.bytes.length := by
  rw [← length_payload,payload_stream]

end SentMessage

namespace Connection

/-- The messages that have not been delivered yet. -/
def undelivered (c : Connection) : List SentMessage := c.sent.drop c.delivered.length

/-- The messages fit into the buffer, and a read does not bring the descriptors of a message while
there are others. -/
def Careful (c : Connection) : Action → Prop
  | .send m => m.message.bytes.length ≤ messageMaxSize
  | .read count =>
    carriers (c.stream.take count) + (if c.receiver.fileDescriptorsSize = 0 then 0 else 1) ≤ 1
  | .processMessage => True

instance (c : Connection) (a : Action) : Decidable (c.Careful a) :=
  match a with
  | .send _ => inferInstanceAs (Decidable (_ ≤ _))
  | .read _ => inferInstanceAs (Decidable (_ ≤ _))
  | .processMessage => .isTrue trivial

/-- The buffers hold the beginning of the messages that have not been delivered. -/
structure Buffers (c : Connection) (buffered : List (UInt8 × List Int32)) : Prop where
  wire : buffered ++ c.stream = c.undelivered.flatMap SentMessage.stream
  bytes : c.receiver.readBuffer = payload buffered
  descriptors : c.receiver.fileDescriptors.take c.receiver.fileDescriptorsSize = carried buffered
  size : c.receiver.fileDescriptorsSize = (carried buffered).length
  one : carriers buffered ≤ 1
  amount : c.receiver.fileDescriptors.length = attachmentMaxAmount

structure Sound (files : Int32 → List UInt8) (c : Connection) : Prop where
  not_closed : c.closed = false
  not_faulted : c.faulted = false
  fits : ∀ m ∈ c.sent, m.message.sendOutgoingMessage.isSome = true ∧
    m.message.bytes.length ≤ messageMaxSize ∧ bodyIsShared files m.message
  contents_eq : c.delivered.map ReceivedMessage.contents =
    (c.sent.take c.delivered.length).map (·.message.contents)
  buffers : ∃ buffered, c.Buffers buffered
  waiting : c.processing = false →
    ∀ m ∈ c.undelivered.head?, c.receiver.readBuffer.length < m.message.bytes.length

section Steps
variable {files : Int32 → List UInt8} {c c' : Connection} {m : SentMessage}
  {rest : List SentMessage}

theorem Sound.delivered_le (h : c.Sound files) : c.delivered.length ≤ c.sent.length := by
  have hl := congrArg List.length h.contents_eq
  rw [length_map,length_map,length_take] at hl
  omega

theorem sizeof_le_length (m : OutgoingMessage) : MessageInfo.sizeof ≤ m.bytes.length := by
  rw [m.length_bytes]
  omega

theorem sound_create : create.Sound files := by
  refine ⟨rfl,rfl,nofun,rfl,⟨[],?_⟩,nofun⟩
  exact ⟨rfl,rfl,rfl,rfl,Nat.zero_le _,length_replicate ..⟩

theorem Buffers.eq_nil {buffered : List (UInt8 × List Int32)} (hb : c.Buffers buffered)
    (h : c.undelivered = []) : buffered = [] := by
  have hw := hb.wire
  rw [h] at hw
  exact (append_eq_nil_iff.mp hw).1

theorem Sound.send (h : c.Sound files)
    (hsend : m.message.sendOutgoingMessage.isSome) (hs : bodyIsShared files m.message)
    (hf : m.message.bytes.length ≤ messageMaxSize) :
    {c with sent := c.sent++[m], stream := c.stream++m.stream}.Sound files := by
  have hle := h.delivered_le
  obtain ⟨buffered,hb⟩ := h.buffers
  have hr : {c with sent := c.sent++[m], stream := c.stream++m.stream}.undelivered =
      c.undelivered++[m] := drop_append_of_le_length hle
  refine ⟨h.not_closed,h.not_faulted,?_,?_,⟨buffered,{hb with wire := ?_}⟩,?_⟩
  · exact forall_mem_append.mpr ⟨h.fits,forall_mem_singleton.mpr ⟨hsend,hf,hs⟩⟩
  · rw [h.contents_eq]
    simp [take_append_of_le_length hle]
  · rw [hr,flatMap_append,← hb.wire,append_assoc]
    simp
  · intro hp m' hm'
    rw [hr] at hm'
    cases hu : c.undelivered with
    | nil =>
      simp only [hb.bytes,hb.eq_nil hu]
      exact Nat.lt_of_lt_of_le (by decide) (sizeof_le_length _)
    | cons m'' rest =>
      rw [hu] at hm'
      refine h.waiting hp m' ?_
      rw [hu]
      exact hm'

theorem mem_sent (hu : c.undelivered = m::rest) : m ∈ c.sent :=
  mem_of_mem_drop (hu ▸ mem_cons_self : m ∈ c.undelivered)

/-- While nothing is processed there is room for another read. -/
theorem Sound.room (h : c.Sound files) (hp : c.processing = false) :
    c.receiver.readBuffer.length < messageMaxSize := by
  obtain ⟨buffered,hb⟩ := h.buffers
  cases hu : c.undelivered with
  | nil =>
    rw [hb.bytes,hb.eq_nil hu]
    decide
  | cons m rest =>
    have hw := h.waiting hp m (by rw [hu]; rfl)
    exact hw.trans_le (h.fits m (mem_sent hu)).2.1

theorem length_fileDescriptors_le {m : OutgoingMessage}
    (h : m.sendOutgoingMessage.isSome) : m.fileDescriptors.length ≤ attachmentMaxAmount := by
  have hle : m.attachments.length ≤ attachmentMaxAmount-1 := by
    by_contra hlt
    rw [OutgoingMessage.sendOutgoingMessage,if_pos (Nat.lt_of_not_le hlt)] at h
    cases h
  refine (length_filter_le _ _).trans ?_
  rw [length_map,OutgoingMessage.allAttachments,attachmentMaxAmount] at *
  split
  · rw [length_append,length_singleton]
    omega
  · omega

section
variable (h : c.Sound files)
include h

/-- No element of the stream carries more than fits into the vector. -/
theorem Sound.length_carried_le {l : List (UInt8 × List Int32)}
    (hl : ∀ cell ∈ l, cell ∈ c.undelivered.flatMap SentMessage.stream) (ho : carriers l ≤ 1) :
    (carried l).length ≤ attachmentMaxAmount := by
  have hcells : ∀ cell ∈ l, cell.2.length ≤ attachmentMaxAmount := by
    intro cell hc
    obtain ⟨m,hm,hc⟩ := mem_flatMap.mp (hl cell hc)
    rcases mem_attach hc with heq | heq
    · rw [heq]
      exact length_fileDescriptors_le (h.fits m (mem_of_mem_drop hm)).1
    · rw [heq]
      exact Nat.zero_le _
  refine (AncillaryData.length_carried_le hcells).trans ?_
  exact (Nat.mul_le_mul_right _ ho).trans_eq (Nat.one_mul _)

theorem Sound.read {count : ℕ} (hc : c.Careful (.read count)) :
    ∃ receiver, c.receiver.receive (payload (c.stream.take count))
        (carried (c.stream.take count)) = some receiver ∧
      {c with
        receiver := receiver
        stream := c.stream.drop count
        processing := true}.Sound files := by
  obtain ⟨buffered,hb⟩ := h.buffers
  have hw := hb.wire
  rw [← take_append_drop count c.stream,← append_assoc] at hw
  have ho : carriers (buffered++c.stream.take count) ≤ 1 := by
    rw [carriers_append]
    have hbuffered := hb.one
    simp only [Careful] at hc
    split at hc
    next hs =>
      have he : carriers buffered = 0 := by
        rw [← carried_eq_nil_iff,← length_eq_zero_iff,← hb.size,hs]
      omega
    next => omega
  have ha := h.length_carried_le (l := buffered++c.stream.take count)
    (fun cell hcell => hw ▸ mem_append_left _ hcell) ho
  rw [carried_append,length_append,← hb.size] at ha
  have ht : (c.receiver.fileDescriptors.take c.receiver.fileDescriptorsSize).length =
      c.receiver.fileDescriptorsSize := by
    rw [length_take,hb.amount]
    omega
  refine ⟨_,if_neg (by rw [hb.amount]; omega),{h with
    buffers := ⟨buffered++c.stream.take count,hw,?_,?_,?_,ho,?_⟩
    waiting := nofun}⟩
  · rw [payload_append,← hb.bytes]
  · rw [carried_append,← hb.descriptors]
    refine take_left' ?_
    rw [length_append,ht]
  · rw [carried_append,length_append,← hb.size]
  · simp only [length_append,ht,length_drop,hb.amount]
    omega

theorem Sound.wait
    (hw : ∀ m ∈ c.undelivered.head?, c.receiver.readBuffer.length < m.message.bytes.length) :
    c.receiver.processMessage files = .waits ∧ {c with processing := false}.Sound files := by
  obtain ⟨buffered,hb⟩ := h.buffers
  constructor
  · refine if_pos ?_
    cases hu : c.undelivered with
    | nil =>
      rw [Receiver.hasMessage,hb.bytes,hb.eq_nil hu]
      rfl
    | cons m rest =>
      have hf := (h.fits m (mem_sent hu)).2.1
      have hwire := hb.wire
      rw [hu,flatMap_cons] at hwire
      have hbs : c.receiver.readBuffer++payload c.stream =
          m.message.bytes++payload (rest.flatMap SentMessage.stream) := by
        rw [hb.bytes,← payload_append,hwire,payload_append,SentMessage.payload_stream]
      exact Receiver.hasMessage_eq_false _ hbs (hf.trans_lt (by decide)) (hw m (by rw [hu]; rfl))
  · exact {h with buffers := ⟨buffered,{hb with}⟩, waiting := fun _ => hw}

theorem Sound.deliver (hproc : c.processing) (hu : c.undelivered = m::rest)
    (hl : m.message.bytes.length ≤ c.receiver.readBuffer.length) :
    ∃ message receiver, c.receiver.processMessage files = .delivers message receiver ∧
      {c with receiver := receiver, delivered := c.delivered++[message]}.Sound files := by
  obtain ⟨buffered,hb⟩ := h.buffers
  obtain ⟨-,hf,hshared⟩ := h.fits m (mem_sent hu)
  have hw := hb.wire
  rw [hu,flatMap_cons] at hw
  -- the stream of the message is the beginning of what is buffered
  obtain ⟨buffered',rfl⟩ : m.stream <+: buffered := by
    have hstream : m.stream <+: buffered++c.stream := by
      rw [hw]
      exact prefix_append _ _
    refine prefix_of_prefix_length_le hstream (prefix_append _ _) ?_
    rw [SentMessage.length_stream,← length_payload,← hb.bytes]
    exact hl
  rw [append_assoc,append_cancel_left_eq] at hw
  have hbs := hb.bytes
  rw [payload_append,SentMessage.payload_stream] at hbs
  have hd := hb.descriptors
  rw [carried_append,SentMessage.carried_stream] at hd
  have hs := hb.size
  rw [carried_append,SentMessage.carried_stream,length_append] at hs
  have hv : c.receiver.fileDescriptors = m.message.fileDescriptors ++
      (carried buffered'++c.receiver.fileDescriptors.drop c.receiver.fileDescriptorsSize) := by
    rw [← append_assoc,← hd,take_append_drop]
  have ho : m.message.fileDescriptors = [] ∨ carried buffered' = [] := by
    have hone := hb.one
    rw [carriers_append] at hone
    rw [← SentMessage.carried_stream,carried_eq_nil_iff,carried_eq_nil_iff]
    omega
  have hown : m.message.fileDescriptors = [] ∨
      c.receiver.fileDescriptorsSize = m.message.fileDescriptors.length :=
    ho.imp_right fun hn => by rw [hs,hn,length_nil,Nat.add_zero]
  obtain ⟨message,hc,hprocess⟩ := Receiver.processMessage_eq hbs
    (hf.trans_lt (by decide)) hv hshared hown
  refine ⟨message,_,hprocess,h.not_closed,h.not_faulted,h.fits,?_,⟨buffered',?_⟩,?_⟩
  · have hnext : c.sent.take (c.delivered.length+1) = c.sent.take c.delivered.length++[m] := by
      rw [take_add_one,← head?_drop,← undelivered,hu]
      rfl
    rw [map_append,h.contents_eq,length_append,length_singleton,hnext,
      map_append,map_singleton,map_singleton,hc]
  · refine ⟨?_,rfl,?_,?_,?_,hb.amount⟩
    · have hr : c.sent.drop (c.delivered.length+1) = rest := by
        rw [← drop_drop,← undelivered,hu]
        rfl
      simp only [undelivered,length_append,length_singleton,hr]
      exact hw
    · split
      next hn => rw [hd,hn,nil_append]
      next hsome => rw [ho.resolve_left hsome,take_zero]
    · split
      next hn => rw [hs,hn,length_nil,Nat.zero_add]
      next hsome => rw [ho.resolve_left hsome,length_nil]
    · have hone := hb.one
      rw [carriers_append] at hone
      omega
  · intro hp
    rw [hproc] at hp
    cases hp

theorem Sound.step {a : Action} (hc : c.Careful a)
    (hs : c.step files a = some c') : c'.Sound files := by
  cases a with
  | send m =>
    simp only [Connection.step] at hs
    split at hs
    next hsend =>
      cases hs
      exact h.send hsend.1 hsend.2 hc
    next => cases hs
  | read count =>
    simp only [Connection.step] at hs
    split at hs
    next => cases hs
    next hg =>
      have hproc : c.processing = false := by
        cases hp : c.processing with
        | true => exact absurd (.inr (.inr hp)) hg
        | false => rfl
      have hroom := h.room hproc
      rw [if_neg (by omega)] at hs
      split at hs
      next =>
        obtain ⟨receiver,hr,hsound⟩ := h.read hc
        rw [hr] at hs
        cases hs
        exact hsound
      next => cases hs
  | processMessage =>
    simp only [Connection.step] at hs
    split at hs
    next => cases hs
    next hg =>
      have hproc : c.processing := by
        cases hp : c.processing with
        | true => rfl
        | false => exact absurd (.inr (by rw [hp]; rfl)) hg
      have hw : (∀ m ∈ c.undelivered.head?,
          c.receiver.readBuffer.length < m.message.bytes.length) → c'.Sound files := by
        intro hwaits
        obtain ⟨hprocess,hsound⟩ := h.wait hwaits
        rw [hprocess] at hs
        cases hs
        exact hsound
      cases hu : c.undelivered with
      | nil =>
        refine hw ?_
        rw [hu]
        exact nofun
      | cons m rest =>
        by_cases hl : m.message.bytes.length ≤ c.receiver.readBuffer.length
        · obtain ⟨message,receiver,hprocess,hsound⟩ := h.deliver hproc hu hl
          rw [hprocess] at hs
          cases hs
          exact hsound
        · refine hw ?_
          rw [hu]
          intro m' hm'
          cases hm'
          exact Nat.lt_of_not_le hl

/-- When everything has been read and processed, everything has been delivered. -/
theorem Sound.all_delivered (hp : c.processing = false)
    (hs : c.stream = []) : c.delivered.length = c.sent.length := by
  obtain ⟨buffered,hb⟩ := h.buffers
  cases hu : c.undelivered with
  | nil => exact le_antisymm h.delivered_le (drop_eq_nil_iff.mp hu)
  | cons m rest =>
    have hw := h.waiting hp m (by rw [hu]; rfl)
    have hwire := congrArg List.length hb.wire
    rw [hs,append_nil,hu,flatMap_cons,length_append,SentMessage.length_stream] at hwire
    rw [hb.bytes,length_payload] at hw
    omega

end

end Steps

/-- The messages that an action sends. -/
def sentBy : Action → List SentMessage
  | .send m => [m]
  | _ => []

theorem sent_step {files : Int32 → List UInt8} {a : Action} {c c' : Connection}
    (h : c.step files a = some c') : c'.sent = c.sent ++ sentBy a := by
  cases a
  all_goals
    simp only [Connection.step] at h
    repeat' split at h
  all_goals
    cases h
    try simp [sentBy]

/-- In every run in which the messages fit and the descriptors of two messages are never buffered at
the same time, the messages that have been delivered are the first ones that were sent, with their
bodies and attachments.  No message is left when everything has been read and processed. -/
theorem messages_delivered {files : Int32 → List UInt8} {c : Connection}
    {actions : List Action} (ha : Allowed (step files) Careful actions create)
    (hrun : run (step files) actions create = some c) :
    c.sent = actions.flatMap sentBy ∧ c.closed = false ∧ c.faulted = false ∧
      c.delivered.map ReceivedMessage.contents =
        (c.sent.take c.delivered.length).map (·.message.contents) ∧
      (c.processing = false → c.receiver.readBuffer.length < messageMaxSize ∧
        (c.stream = [] → c.delivered.length = c.sent.length)) := by
  have hsound : c.Sound files := by
    have h : Reaches (step files) Careful (· = create) c := .run (.start rfl) ha hrun
    refine h.invariant ?_ fun s a s' hs ha hstep => hs.step ha hstep
    rintro s rfl
    exact sound_create
  exact ⟨run_record sent sentBy (fun _ _ _ => sent_step) hrun,hsound.not_closed,hsound.not_faulted,hsound.contents_eq,fun hp =>
    ⟨hsound.room hp,hsound.all_delivered hp⟩⟩

/-- A message with a short body and sockets as attachments. -/
def socketsMessage (body : List UInt8) (sockets : List Int32) (h : body.length < 2 ^ 64) :
    OutgoingMessage where
  body := body
  attachments := sockets.map .socket
  bodyDescriptor := -1
  body_length := h
  initialized := by simp

def firstMessage : SentMessage :=
  ⟨socketsMessage [1] [10] (by decide), 0, by decide +kernel⟩

def secondMessage : SentMessage :=
  ⟨socketsMessage [2] [11, 12, 13, 14] (by decide), 0, by decide +kernel⟩

/-- Both messages, the second one read in two parts. -/
def readSeparately : List Action :=
  [.send firstMessage, .send secondMessage, .read 49, .processMessage, .processMessage, .read 30,
    .processMessage, .read 91, .processMessage, .processMessage]

theorem messages_delivered_readSeparately :
    ∃ c, run (step fun _ => []) readSeparately create = some c ∧
      c.delivered.map ReceivedMessage.contents =
        [([1], [.socket 10]), ([2], [.socket 11, .socket 12, .socket 13, .socket 14])] ∧
      c.closed = false ∧ c.faulted = false := by
  have ha : Allowed (step fun _ => []) Careful readSeparately create := by decide +kernel
  obtain ⟨c,hc,hd,hsent⟩ : ∃ c ∈ run (step fun _ => []) readSeparately create,
      c.delivered.length = 2 ∧ c.sent.map (·.message.contents) =
        [([1],[.socket 10]),([2],[.socket 11,.socket 12,.socket 13,.socket 14])] := by
    decide +kernel
  obtain ⟨-,hclosed,hf,hcont,-⟩ := messages_delivered ha hc
  refine ⟨c,hc,?_,hclosed,hf⟩
  rw [hcont,map_take,hsent,hd]
  rfl

/-- So many attachments that their descriptions do not fit into the buffer of the receiver. -/
def manyAttachments : SentMessage :=
  ⟨socketsMessage [] (List.replicate 170 (-1)) (by decide), 0, by decide +kernel⟩

/-- Two messages with descriptors in one read.  The second one is delivered with the descriptors in
another order, and if there are fewer of them the vector is accessed outside its bounds.  A message with
too many attachments is never delivered: the connection is closed. -/
theorem descriptors_confused :
    (∃ c, run (step fun _ => [])
        [.send firstMessage, .send secondMessage, .read 170, .processMessage, .processMessage]
        create = some c ∧
      c.delivered.map ReceivedMessage.contents =
        [([1], [.socket 10]), ([2], [.socket 14, .socket 11, .socket 12, .socket 13])]) ∧
      (∃ c, run (step fun _ => [])
        [.send firstMessage, .send firstMessage, .read 98, .processMessage] create = some c ∧
      c.faulted = true) ∧
      ∃ c, run (step fun _ => [])
        [.send manyAttachments, .read 4096, .processMessage, .read 1] create = some c ∧
      c.delivered = [] ∧ c.closed = true := by
  refine ⟨?_,?_,?_⟩
  · decide +kernel
  · decide +kernel
  · decide +kernel

end Connection

end QPlusWeb.IPC
