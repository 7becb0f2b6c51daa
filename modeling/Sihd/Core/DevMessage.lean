import Sihd.Lib.Transition
import Sihd.Core.Channel
import Sihd.Util.Message.Transfer

/-!
# The channels of a message

A `DevMessage` gives a finished message two channels for each of its fields, two for
the whole and a trigger. It is told of the writes to the channels it observes: a field,
or the message, reads the channel that was written, and the channels that show them are
filled, at once or when the trigger is written.

The number of elements of a channel is given for the number of its bytes.
`keepsAgreement_iff` says for which messages that is the same.
-/

namespace Sihd.Core

open Util

/-- A started device, its message in its memory `mem` and its channels by name.
`notified` are the channels whose observers it has told. -/
structure DevMessage where
  triggerMode : Bool
  msgPtr : IMessageField
  mem : List UInt8
  channels : String → Option Channel
  notified : List String

namespace DevMessage

def inSuffix : String := "_in"

def outSuffix : String := "_out"

def channelTrigger : String := "trigger"

def channelMsgIn : String := "buffer_in"

def channelMsgOut : String := "buffer_out"

/-- The children of the message. Their names have no separator, so that each is found
by its own. -/
def msgFields (d : DevMessage) : List (String × IMessageField) := d.msgPtr.children.toList

def setChannel (channels : String → Option Channel) (name : String) (c : Channel) :
    String → Option Channel :=
  fun key => if key = name then some c else channels key

/-- `add_unlinked_channel`: a name that is taken is not added again. -/
def addUnlinkedChannel (channels : String → Option Channel) (name : String) (type : DataType)
    (size : Nat) : String → Option Channel :=
  if (channels name).isSome then channels
  else if h : size * type.size < 2 ^ 63 then setChannel channels name (.create type size h)
  else channels

/-- The channels of the fields, in the loop of `on_init`. -/
def addFieldChannels (channels : String → Option Channel) :
    List (String × IMessageField) → String → Option Channel
  | [] => channels
  | (name, field) :: fields =>
      addFieldChannels
        (addUnlinkedChannel
          (addUnlinkedChannel channels (name ++ inSuffix) field.fieldType field.fieldSize)
          (name ++ outSuffix) field.fieldType field.fieldSize)
        fields

def onInit (triggerMode : Bool) (msgPtr : IMessageField) (mem : List UInt8) :
    Option DevMessage :=
  if msgPtr.isFinished then
    let channels := addFieldChannels (fun _ => none) msgPtr.children.toList
    let channels := addUnlinkedChannel channels channelTrigger .bool 1
    let channels := addUnlinkedChannel channels channelMsgIn msgPtr.fieldType msgPtr.fieldByteSize
    let channels := addUnlinkedChannel channels channelMsgOut msgPtr.fieldType msgPtr.fieldByteSize
    some ⟨triggerMode, msgPtr, mem, channels, []⟩
  else none

/-- Every channel is found. -/
def onStart (d : DevMessage) : Bool :=
  d.msgFields.all (fun f => (d.channels (f.1 ++ inSuffix)).isSome &&
    (d.channels (f.1 ++ outSuffix)).isSome) &&
  (d.channels channelMsgIn).isSome && (d.channels channelMsgOut).isSome &&
  (d.channels channelTrigger).isSome

def start (triggerMode : Bool) (msgPtr : IMessageField) (mem : List UInt8) : Option DevMessage :=
  (onInit triggerMode msgPtr mem).filter (·.onStart)

/-- The channel over a new buffer. -/
def fill (c : Channel) (buf : List UInt8) (h : buf.length = c.array.buf.length) : Channel :=
  { c with
    array := c.array.withBuf buf h
    addressable := by
      rw [IArray.byteCapacity, IArray.withBuf, h]
      exact c.addressable }

/-- `field_write_to(ch->data(), ch->byte_size())`. -/
def writeToChannel (field : IMessageField) (mem : List UInt8) (c : Channel) : Option Channel :=
  match h : field.fieldWriteTo mem c.array.buf c.array.byteSize with
  | some buf => some (fill c buf (IMessageField.fieldWriteTo_length h c.array.fits))
  | none => none

/-- A channel is filled from a field, and its observers are told. -/
def refresh (d : DevMessage) (name : String) (field : IMessageField) : Option DevMessage :=
  (d.channels name).bind fun c =>
    (writeToChannel field d.mem c).map fun c' =>
      { d with channels := setChannel d.channels name c', notified := d.notified ++ [name] }

def computeOutput (d : DevMessage) : DevMessage := (d.refresh channelMsgOut d.msgPtr).getD d

/-- The loop of `_fill_channels_out`. It goes by the addresses of the fields, here in
their order. -/
def fillChannelsOut : List (String × IMessageField) → DevMessage → DevMessage
  | [], d => d
  | (name, field) :: fields, d =>
      match d.refresh (name ++ outSuffix) field with
      | none => d
      | some d' => fillChannelsOut fields d'

/-- `field_read_from(channel->array()->buf(), channel->size())`. -/
def readFrom (d : DevMessage) (field : IMessageField) (name : String) : Option DevMessage :=
  (d.channels name).bind fun c =>
    (field.fieldReadFrom d.mem (c.array.buf.take c.array.size)).map fun mem => { d with mem := mem }

def handle (d : DevMessage) (channel : String) : DevMessage :=
  if channel = channelTrigger then
    let d := if d.triggerMode then (fillChannelsOut d.msgFields d).computeOutput else d
    { d with notified := d.notified ++ [channelMsgOut] }
  else if channel = channelMsgIn then
    match d.readFrom d.msgPtr channel with
    | none => d
    | some d => if d.triggerMode then d else (fillChannelsOut d.msgFields d).computeOutput
  else
    match d.msgFields.find? fun f => f.1 ++ inSuffix = channel with
    | none => d
    | some (name, field) =>
        match d.readFrom field channel with
        | none => d
        | some d =>
            if d.triggerMode then d
            else
              match d.refresh (name ++ outSuffix) field with
              | none => d
              | some d => d.computeOutput

/-! ### Runs -/

/-- The channels that the device observes. -/
def observes (d : DevMessage) (name : String) : Bool :=
  name = channelTrigger || name = channelMsgIn || d.msgFields.any fun f => f.1 ++ inSuffix = name

/-- A write to a channel, or a call of its `notify`. -/
inductive Action
  | write (name : String) (now : Int) (view : ArrByteView) (byteOffset : Nat)
  | notify (name : String)

def Action.name : Action → String
  | write name _ _ _ => name
  | notify name => name

/-- What a call on an observed channel does to it, and whether the device is told. -/
def call (d : DevMessage) : Action → Option (DevMessage × Bool)
  | .write name now view byteOffset =>
      if d.observes name then
        (d.channels name).bind fun c => (c.write now view.bytes byteOffset).map fun w =>
          ({ d with channels := setChannel d.channels name w.channel }, w.notified)
      else none
  | .notify name => if d.observes name then some (d, true) else none

def step (d : DevMessage) (a : Action) : Option DevMessage :=
  (d.call a).map fun r => if r.2 then r.1.handle a.name else r.1

/-! ### Agreement -/

/-- A channel holds all the bytes of a field. -/
def Shows (d : DevMessage) (name : String) (field : IMessageField) : Prop :=
  ∃ c, d.channels name = some c ∧ c.array.bytes = field.arrayBytes d.mem

/-- The device `d` was told of a channel and is now `d'`: the field of the channel, or the
message, got all the bytes of the channel, and where the mode asks for it the outputs show
the message and the fields that were refreshed. -/
structure Agrees (d : DevMessage) (channel : String) (d' : DevMessage) : Prop where
  field : ∀ f ∈ d.msgFields, f.1 ++ inSuffix = channel → ∀ c, d.channels channel = some c →
    f.2.Sets d.mem d'.mem c.array.bytes
  message : channel = channelMsgIn → ∀ c, d.channels channel = some c →
    d.msgPtr.Sets d.mem d'.mem c.array.bytes
  buffer : d.triggerMode = decide (channel = channelTrigger) →
    d'.Shows channelMsgOut d.msgPtr
  outputs : d.triggerMode = decide (channel = channelTrigger) → ∀ f ∈ d.msgFields,
    (channel = channelTrigger ∨ channel = channelMsgIn ∨ f.1 ++ inSuffix = channel) →
      d'.Shows (f.1 ++ outSuffix) f.2

theorem in_inj {name name' : String} : name ++ inSuffix = name' ++ inSuffix ↔ name = name' :=
  String.append_left_inj inSuffix

theorem out_inj {name name' : String} : name ++ outSuffix = name' ++ outSuffix ↔ name = name' :=
  String.append_left_inj outSuffix

theorem in_eq_channelMsgIn {name : String} : name ++ inSuffix = channelMsgIn ↔ name = "buffer" :=
  @String.append_left_inj name "buffer" inSuffix

theorem out_eq_channelMsgOut {name : String} :
    name ++ outSuffix = channelMsgOut ↔ name = "buffer" :=
  @String.append_left_inj name "buffer" outSuffix

theorem in_ne_channelTrigger (name : String) : name ++ inSuffix ≠ channelTrigger := fun h => by
  have hlast := congrArg (fun s => s.toList.getLast?) h
  simp [inSuffix, channelTrigger, String.toList_append] at hlast

theorem setChannel_self (channels : String → Option Channel) (name : String) (c : Channel) :
    setChannel channels name c name = some c := if_pos rfl

theorem setChannel_of_ne {channels : String → Option Channel} {name key : String} {c : Channel}
    (h : key ≠ name) : setChannel channels name c key = channels key := if_neg h

/-! ### What no call changes -/

/-- What a channel is, apart from its bytes. -/
def shape (c : Channel) : DataType × Nat × Bool := (c.array.type, c.array.size, c.resizable)

structure Same (d d' : DevMessage) : Prop where
  triggerMode : d'.triggerMode = d.triggerMode
  msgPtr : d'.msgPtr = d.msgPtr
  length : d'.mem.length = d.mem.length
  channels : ∀ name, (d'.channels name).map shape = (d.channels name).map shape

section Same

variable {d d' d'' : DevMessage} {field : IMessageField} {name : String}

theorem Same.refl (d : DevMessage) : Same d d := ⟨rfl, rfl, rfl, fun _ => rfl⟩

theorem Same.trans (h : Same d d') (h' : Same d' d'') : Same d d'' where
  triggerMode := h'.triggerMode.trans h.triggerMode
  msgPtr := h'.msgPtr.trans h.msgPtr
  length := h'.length.trans h.length
  channels name := (h'.channels name).trans (h.channels name)

theorem Same.setChannel {c c' : Channel} (hc : d.channels name = some c)
    (hshape : shape c' = shape c) (notified : List String) :
    Same d { d with channels := setChannel d.channels name c', notified := notified } where
  triggerMode := rfl
  msgPtr := rfl
  length := rfl
  channels key := by
    dsimp only
    by_cases hkey : key = name
    · rw [hkey, setChannel_self, hc, Option.map_some, Option.map_some, hshape]
    · rw [setChannel_of_ne hkey]

theorem writeToChannel_shape {mem : List UInt8} {c c' : Channel}
    (h : writeToChannel field mem c = some c') : shape c' = shape c := by
  unfold writeToChannel at h
  split at h
  · cases h
    rfl
  · cases h

theorem refresh_eq_some (h : d.refresh name field = some d') :
    ∃ c c', d.channels name = some c ∧ writeToChannel field d.mem c = some c' ∧
      d' = { d with
        channels := DevMessage.setChannel d.channels name c'
        notified := d.notified ++ [name] } := by
  obtain ⟨c, hc, h⟩ := Option.bind_eq_some_iff.mp h
  obtain ⟨c', hc', rfl⟩ := Option.map_eq_some_iff.mp h
  exact ⟨c, c', hc, hc', rfl⟩

theorem same_refresh (h : d.refresh name field = some d') : Same d d' := by
  obtain ⟨c, c', hc, hc', rfl⟩ := refresh_eq_some h
  exact .setChannel hc (writeToChannel_shape hc') _

theorem refresh_mem (h : d.refresh name field = some d') : d'.mem = d.mem := by
  obtain ⟨c, c', -, -, rfl⟩ := refresh_eq_some h
  rfl

theorem same_computeOutput (d : DevMessage) : Same d d.computeOutput := by
  rw [computeOutput]
  cases h : d.refresh channelMsgOut d.msgPtr with
  | none => exact .refl d
  | some d' => exact same_refresh h

theorem computeOutput_mem (d : DevMessage) : d.computeOutput.mem = d.mem := by
  rw [computeOutput]
  cases h : d.refresh channelMsgOut d.msgPtr with
  | none => rfl
  | some d' => exact refresh_mem h

theorem same_fillChannelsOut (fields : List (String × IMessageField)) (d : DevMessage) :
    Same d (fillChannelsOut fields d) ∧ (fillChannelsOut fields d).mem = d.mem := by
  induction fields generalizing d with
  | nil => exact ⟨.refl d, rfl⟩
  | cons f fields ih =>
    rw [fillChannelsOut]
    split
    · exact ⟨.refl d, rfl⟩
    · rename_i d' hrefresh
      obtain ⟨hsame, hmem⟩ := ih d'
      exact ⟨(same_refresh hrefresh).trans hsame, hmem.trans (refresh_mem hrefresh)⟩

theorem readFrom_eq_some (h : d.readFrom field name = some d') :
    ∃ c mem, d.channels name = some c ∧
      field.fieldReadFrom d.mem (c.array.buf.take c.array.size) = some mem ∧
        d' = { d with mem := mem } := by
  obtain ⟨c, hc, h⟩ := Option.bind_eq_some_iff.mp h
  obtain ⟨mem, hmem, rfl⟩ := Option.map_eq_some_iff.mp h
  exact ⟨c, mem, hc, hmem, rfl⟩

theorem same_readFrom (hplaced : field.IsPlaced d.mem) (h : d.readFrom field name = some d') :
    Same d d' := by
  obtain ⟨c, mem, -, hmem, rfl⟩ := readFrom_eq_some h
  exact ⟨rfl, rfl, IMessageField.fieldReadFrom_length hplaced hmem, fun _ => rfl⟩

theorem same_handle (h : d.msgPtr.IsFinished d.mem) (channel : String) :
    Same d (d.handle channel) := by
  have hfill : ∀ d : DevMessage, Same d (fillChannelsOut d.msgFields d).computeOutput := fun d =>
    (same_fillChannelsOut d.msgFields d).1.trans (same_computeOutput _)
  rw [handle]
  split
  · have hsame : Same d
        (if d.triggerMode then (fillChannelsOut d.msgFields d).computeOutput else d) := by
      split
      · exact hfill d
      · exact .refl d
    exact ⟨hsame.triggerMode, hsame.msgPtr, hsame.length, hsame.channels⟩
  · split
    · split
      · exact .refl d
      · rename_i d' hread
        have hsame := same_readFrom h.placed hread
        split
        · exact hsame
        · exact hsame.trans (hfill d')
    · split
      · exact .refl d
      · rename_i name field hfind
        split
        · exact .refl d
        · rename_i d' hread
          have hsame := same_readFrom (h.parts _ (List.mem_of_find?_eq_some hfind)).1 hread
          split
          · exact hsame
          · split
            · exact hsame
            · rename_i d'' hrefresh
              exact (hsame.trans (same_refresh hrefresh)).trans (same_computeOutput d'')

theorem write_shape {c : Channel} {now : Int} {bytes : List UInt8} {byteOffset : Nat}
    {w : Channel.Written} (hresizable : c.resizable = false)
    (h : c.write now bytes byteOffset = some w) : shape w.channel = shape c := by
  have hcopy : shape (c.copy now bytes byteOffset).channel = shape c := by
    unfold Channel.copy
    split
    · rfl
    · split
      · rename_i array hcopy
        obtain ⟨htype, hsize⟩ := IArray.copyFromBytes_shape hcopy
        simp [shape, htype, hsize]
      · rfl
  simp only [Channel.write] at h
  split at h
  · cases h
    rfl
  · split at h
    · cases h
      exact hcopy
    · rw [dif_pos (.inl hresizable)] at h
      cases h
      rfl

end Same

/-! ### Devices whose channels have the bytes of their fields -/

/-- A channel of `n` elements of one byte. -/
def Holds (d : DevMessage) (name : String) (n : Nat) : Prop :=
  ∃ type : DataType, type.size = 1 ∧ (d.channels name).map shape = some (type, n, false)

/-- The message is finished, and its fields and its channels are counted in bytes. -/
structure Exact (d : DevMessage) : Prop where
  finished : d.msgPtr.IsFinished d.mem
  sizes : ∀ f ∈ d.msgFields, f.2.fieldSize = f.2.fieldByteSize
  buffer : ∀ f ∈ d.msgFields, f.1 = "buffer" → f.2.fieldByteSize = d.msgPtr.fieldByteSize
  ins : ∀ f ∈ d.msgFields, d.Holds (f.1 ++ inSuffix) f.2.fieldByteSize
  outs : ∀ f ∈ d.msgFields, d.Holds (f.1 ++ outSuffix) f.2.fieldByteSize
  msgIn : d.Holds channelMsgIn d.msgPtr.fieldByteSize
  msgOut : d.Holds channelMsgOut d.msgPtr.fieldByteSize

section Exact

variable {d d' : DevMessage} {field : IMessageField} {name : String} {n : Nat}

theorem Same.msgFields (h : Same d d') : d'.msgFields = d.msgFields :=
  congrArg (·.children.toList) h.msgPtr

theorem Holds.of_same (h : d.Holds name n) (hsame : Same d d') : d'.Holds name n := by
  obtain ⟨type, hsize, hshape⟩ := h
  exact ⟨type, hsize, (hsame.channels name).trans hshape⟩

theorem Exact.of_same (h : d.Exact) (hsame : Same d d') : d'.Exact := by
  have hfields := hsame.msgFields
  refine ⟨?_, ?_, ?_, ?_, ?_, ?_, ?_⟩
  · rw [hsame.msgPtr]
    exact h.finished.of_length hsame.length
  · rw [hfields]
    exact h.sizes
  · rw [hfields, hsame.msgPtr]
    exact h.buffer
  · rw [hfields]
    exact fun f hf => (h.ins f hf).of_same hsame
  · rw [hfields]
    exact fun f hf => (h.outs f hf).of_same hsame
  · rw [hsame.msgPtr]
    exact h.msgIn.of_same hsame
  · rw [hsame.msgPtr]
    exact h.msgOut.of_same hsame

theorem Holds.channel (h : d.Holds name n) :
    ∃ c, d.channels name = some c ∧ c.array.size = n ∧ c.array.byteSize = n ∧
      c.resizable = false := by
  obtain ⟨type, hsize, hshape⟩ := h
  obtain ⟨c, hc, hshape⟩ := Option.map_eq_some_iff.mp hshape
  obtain ⟨rfl, hn, hresizable⟩ := Prod.mk.injEq .. ▸ (Prod.mk.injEq .. ▸ hshape)
  exact ⟨c, hc, hn, by rw [IArray.byteSize, hn, hsize, Nat.mul_one], hresizable⟩

theorem Exact.pos (h : d.Exact) {f : String × IMessageField} (hf : f ∈ d.msgFields) :
    0 < f.2.fieldByteSize := h.sizes f hf ▸ (h.finished.fields f hf).2

theorem Exact.hasArray (h : d.Exact) : d.msgPtr.hasArray = true := by
  have htype := h.finished.finished
  cases hmsg : d.msgPtr with
  | messageField dt size buf =>
    rw [hmsg] at htype
    exact htype
  | message totalSize finished buf children => rfl

theorem Shows.of_eq (h : d.Shows name field) (hchannel : d'.channels name = d.channels name)
    (hmem : d'.mem = d.mem) : d'.Shows name field := by
  obtain ⟨c, hc, hbytes⟩ := h
  exact ⟨c, hchannel.trans hc, hmem ▸ hbytes⟩

/-- A channel with room for a field is filled with it. -/
theorem refresh_spec (hplaced : field.IsPlaced d.mem) (harray : field.hasArray = true)
    (h : d.Holds name field.fieldByteSize) :
    (∃ d', d.refresh name field = some d' ∧ d'.Shows name field ∧
      ∀ key, key ≠ name → d'.channels key = d.channels key) ∨
    (d.refresh name field = none ∧ d.Shows name field ∧ field.fieldByteSize = 0) := by
  obtain ⟨c, hc, -, hbytes, -⟩ := h.channel
  have hlength := hplaced.arrayBytes_length
  by_cases hbuf : c.array.buf = []
  · have hzero : field.fieldByteSize = 0 := by
      have hfits := c.array.fits
      rw [hbuf, List.length_nil] at hfits
      rw [← hbytes]
      exact Nat.le_zero.mp hfits
    have hnone : writeToChannel field d.mem c = none := by
      unfold writeToChannel
      split
      · rename_i buf hwrite
        rw [IMessageField.fieldWriteTo, if_neg (by simp [hbuf])] at hwrite
        cases hwrite
      · rfl
    refine .inr ⟨by rw [refresh, hc, Option.bind_some, hnone, Option.map_none], ⟨c, hc, ?_⟩, hzero⟩
    rw [List.eq_nil_of_length_eq_zero (hlength.trans hzero), IArray.bytes, hbuf, List.take_nil]
  · have hwrite : field.fieldWriteTo d.mem c.array.buf c.array.byteSize =
        some (overwrite c.array.buf 0 (field.arrayBytes d.mem)) := by
      rw [IMessageField.fieldWriteTo, if_pos ⟨harray, hbuf⟩, hbytes, ← hlength, List.take_length]
    have hsome : ∃ c', writeToChannel field d.mem c = some c' ∧
        c'.array.bytes = field.arrayBytes d.mem := by
      unfold writeToChannel
      split
      · rename_i buf hwrite'
        cases hwrite.symm.trans hwrite'
        refine ⟨_, rfl, ?_⟩
        have hend := overwrite_take_end (b := field.arrayBytes d.mem)
          (Nat.zero_le c.array.buf.length)
        rw [Nat.zero_add, hlength, ← hbytes] at hend
        exact hend
      · rename_i hnone
        cases hwrite.symm.trans hnone
    obtain ⟨c', hc', hbytes'⟩ := hsome
    refine .inl ⟨{ d with
      channels := setChannel d.channels name c'
      notified := d.notified ++ [name] }, ?_, ?_, fun key hkey => setChannel_of_ne hkey⟩
    · rw [refresh, hc, Option.bind_some, hc', Option.map_some]
    · exact ⟨c', setChannel_self _ _ _, hbytes'⟩

/-- A field named as the message is the whole of it. -/
theorem Exact.arrayBytes_buffer (h : d.Exact) {f : String × IMessageField} (hf : f ∈ d.msgFields)
    (hname : f.1 = "buffer") : f.2.arrayBytes d.mem = d.msgPtr.arrayBytes d.mem := by
  obtain ⟨⟨b, hb, -⟩, -⟩ := h.finished.parts f hf
  obtain ⟨b', hb', -⟩ := h.finished.placed
  obtain ⟨hoffset, hsize⟩ := h.finished.offset_eq hf (h.buffer f hf hname) hb hb'
  rw [IMessageField.arrayBytes_of_buf hb, IMessageField.arrayBytes_of_buf hb', hoffset, hsize]

theorem Exact.computeOutput_shows (h : d.Exact) :
    d.computeOutput.Shows channelMsgOut d.msgPtr := by
  rw [computeOutput]
  rcases refresh_spec h.finished.placed h.hasArray h.msgOut with
    ⟨d', hrefresh, hshows, -⟩ | ⟨hrefresh, hshows, -⟩
  · rw [hrefresh]
    exact hshows
  · rw [hrefresh]
    exact hshows

/-- Where a field was shown it still is. -/
theorem Exact.shows_computeOutput (h : d.Exact) {f : String × IMessageField}
    (hf : f ∈ d.msgFields) (hshows : d.Shows (f.1 ++ outSuffix) f.2) :
    d.computeOutput.Shows (f.1 ++ outSuffix) f.2 := by
  by_cases hname : f.1 = "buffer"
  · obtain ⟨c, hc, hbytes⟩ := h.computeOutput_shows
    refine ⟨c, (out_eq_channelMsgOut.mpr hname).symm ▸ hc, ?_⟩
    rw [computeOutput_mem] at hbytes ⊢
    rw [hbytes, h.arrayBytes_buffer hf hname]
  · have hne : f.1 ++ outSuffix ≠ channelMsgOut := fun heq => hname (out_eq_channelMsgOut.mp heq)
    refine hshows.of_eq ?_ (computeOutput_mem d)
    rw [computeOutput]
    rcases refresh_spec h.finished.placed h.hasArray h.msgOut with
      ⟨d', hrefresh, -, hframe⟩ | ⟨hrefresh, -, -⟩
    · rw [hrefresh]
      exact hframe _ hne
    · rw [hrefresh]
      rfl

/-- The loop over the fields fills their channels and no other. -/
theorem Exact.fillChannelsOut_shows (fields : List (String × IMessageField)) {d : DevMessage}
    (h : d.Exact) (hfields : ∀ f ∈ fields, f ∈ d.msgFields) (hnames : (fields.map Prod.fst).Nodup) :
    (∀ f ∈ fields, (fillChannelsOut fields d).Shows (f.1 ++ outSuffix) f.2) ∧
      ∀ key, (∀ f ∈ fields, key ≠ f.1 ++ outSuffix) →
        (fillChannelsOut fields d).channels key = d.channels key := by
  induction fields generalizing d with
  | nil => exact ⟨fun f hf => (by cases hf), fun _ _ => rfl⟩
  | cons f fields ih =>
    rw [List.forall_mem_cons] at hfields
    rw [List.map_cons, List.nodup_cons] at hnames
    have hplaced := (h.finished.parts f hfields.1).1
    rcases refresh_spec hplaced (h.finished.fields f hfields.1).1 (h.outs f hfields.1) with
      ⟨d', hrefresh, hshows, hframe⟩ | ⟨-, -, hzero⟩
    · have hsame := same_refresh hrefresh
      obtain ⟨hrest, hkeep⟩ := ih (h.of_same hsame)
        (fun g hg => hsame.msgFields.symm ▸ hfields.2 g hg) hnames.2
      have hfill : fillChannelsOut (f :: fields) d = fillChannelsOut fields d' := by
        rw [fillChannelsOut, hrefresh]
      rw [hfill]
      refine ⟨fun g hg => ?_, fun key hkey => ?_⟩
      · rcases List.mem_cons.mp hg with rfl | hg
        · refine hshows.of_eq (hkeep _ fun g' hg' heq => hnames.1 ?_)
            (same_fillChannelsOut fields d').2
          exact out_inj.mp heq ▸ List.mem_map_of_mem hg'
        · exact hrest g hg
      · rw [List.forall_mem_cons] at hkey
        rw [hkeep key hkey.2, hframe key hkey.1]
    · exact absurd (h.pos hfields.1) (by omega)

/-- All outputs are filled. -/
theorem Exact.fill_shows (h : d.Exact) {f : String × IMessageField} (hf : f ∈ d.msgFields) :
    (fillChannelsOut d.msgFields d).computeOutput.Shows (f.1 ++ outSuffix) f.2 := by
  have hsame := (same_fillChannelsOut d.msgFields d).1
  refine (h.of_same hsame).shows_computeOutput
    (hsame.msgFields.symm ▸ hf) ?_
  exact (h.fillChannelsOut_shows d.msgFields (fun _ hg => hg) h.finished.names).1 f hf

theorem Exact.fill_shows_message (h : d.Exact) :
    (fillChannelsOut d.msgFields d).computeOutput.Shows channelMsgOut d.msgPtr := by
  have hsame := (same_fillChannelsOut d.msgFields d).1
  have hshows := (h.of_same hsame).computeOutput_shows
  rwa [hsame.msgPtr] at hshows

/-- A field reads all the bytes of a channel that has as many. -/
theorem readFrom_spec (hplaced : field.IsPlaced d.mem) (harray : field.hasArray = true)
    (hpos : 0 < field.fieldByteSize) (h : d.Holds name field.fieldByteSize) :
    ∃ c b, d.channels name = some c ∧ field.buf = some b ∧ c.array.bytes.length = b.size ∧
      d.readFrom field name = some { d with mem := overwrite d.mem b.offset c.array.bytes } := by
  obtain ⟨c, hc, hsize, hbytes, -⟩ := h.channel
  obtain ⟨b, hb, hbsize, -⟩ := hplaced
  have hlength : c.array.bytes.length = b.size := by
    rw [IArray.bytes_length, hbytes, hbsize]
  have htake : c.array.buf.take c.array.size = c.array.bytes := by
    rw [IArray.bytes, hbytes, hsize]
  refine ⟨c, b, hc, hb, hlength, ?_⟩
  have hread : field.fieldReadFrom d.mem c.array.bytes =
      some (overwrite d.mem b.offset c.array.bytes) := by
    rw [IMessageField.fieldReadFrom, hb]
    exact if_pos ⟨harray, by omega, hlength.le⟩
  rw [readFrom, hc, Option.bind_some, htake, hread, Option.map_some]

/-- The field of an observed channel. -/
theorem find?_msgFields (h : d.msgPtr.IsFinished d.mem) {f : String × IMessageField}
    (hf : f ∈ d.msgFields) :
    (d.msgFields.find? fun g => g.1 ++ inSuffix = f.1 ++ inSuffix) = some f := by
  cases hfind : d.msgFields.find? fun g => g.1 ++ inSuffix = f.1 ++ inSuffix with
  | none => exact absurd (by simp) (List.find?_eq_none.mp hfind f hf)
  | some g =>
    have hname : g.1 = f.1 := in_inj.mp (by simpa using List.find?_some hfind)
    rw [List.inj_on_of_nodup_map h.names (List.mem_of_find?_eq_some hfind) hf hname]

/-- The memory after the device was told of a field. -/
theorem handle_field (h : d.msgPtr.IsFinished d.mem) {f : String × IMessageField}
    (hf : f ∈ d.msgFields) (hname : f.1 ≠ "buffer") :
    d.handle (f.1 ++ inSuffix) =
      match d.readFrom f.2 (f.1 ++ inSuffix) with
      | none => d
      | some d =>
          if d.triggerMode then d
          else
            match d.refresh (f.1 ++ outSuffix) f.2 with
            | none => d
            | some d => d.computeOutput := by
  rw [handle, if_neg (in_ne_channelTrigger f.1),
    if_neg fun heq => hname (in_eq_channelMsgIn.mp heq), find?_msgFields h hf]

theorem handle_channelMsgIn (d : DevMessage) :
    d.handle channelMsgIn =
      match d.readFrom d.msgPtr channelMsgIn with
      | none => d
      | some d => if d.triggerMode then d else (fillChannelsOut d.msgFields d).computeOutput := by
  rw [handle, if_neg (by decide), if_pos rfl]

theorem Exact.agrees_trigger (h : d.Exact) : d.Agrees channelTrigger (d.handle channelTrigger) := by
  have hhandle : d.handle channelTrigger = { (if d.triggerMode then
      (fillChannelsOut d.msgFields d).computeOutput else d) with
        notified := (if d.triggerMode then
          (fillChannelsOut d.msgFields d).computeOutput else d).notified ++ [channelMsgOut] } := by
    rw [handle, if_pos rfl]
  rw [hhandle]
  refine ⟨fun f _ hname => absurd hname (in_ne_channelTrigger f.1), fun hname => ?_,
    fun hmode => ?_, fun hmode f hf _ => ?_⟩
  · exact absurd hname (by decide)
  · rw [if_pos (by simpa using hmode)]
    exact h.fill_shows_message
  · rw [if_pos (by simpa using hmode)]
    exact h.fill_shows hf

/-- A message without bytes has no fields. -/
theorem Exact.fieldByteSize_pos (h : d.Exact) {f : String × IMessageField} (hf : f ∈ d.msgFields) :
    0 < d.msgPtr.fieldByteSize := by
  have hpos := h.pos hf
  obtain ⟨⟨b, hb, hsize, -⟩, hpart⟩ := h.finished.parts f hf
  obtain ⟨b', hb', hsize', -⟩ := h.finished.placed
  obtain ⟨-, hstart, hend⟩ := hpart b hb b' hb'
  omega

theorem Exact.agrees_message (h : d.Exact) : d.Agrees channelMsgIn (d.handle channelMsgIn) := by
  rw [handle_channelMsgIn]
  rcases Nat.eq_zero_or_pos d.msgPtr.fieldByteSize with hzero | hpos
  · -- Nothing is read, and there is nothing to read.
    have hempty : ∀ f, f ∉ d.msgFields := fun f hf => by
      have hpos := h.fieldByteSize_pos hf
      omega
    obtain ⟨b, hb, hbsize, -⟩ := h.finished.placed
    have hread : d.readFrom d.msgPtr channelMsgIn = none := by
      obtain ⟨c, hc, -⟩ := h.msgIn.channel
      rw [readFrom, hc, Option.bind_some, IMessageField.fieldReadFrom, hb]
      dsimp only
      rw [if_neg (by omega), Option.map_none]
    rw [hread]
    refine ⟨fun f hf => absurd hf (hempty f), fun _ c hc => ⟨b, hb, ?_, ?_⟩, fun _ => ?_,
      fun _ f hf => absurd hf (hempty f)⟩
    · obtain ⟨c', hc', -, hbytes, -⟩ := h.msgIn.channel
      cases hc.symm.trans hc'
      rw [IArray.bytes_length, hbytes, hbsize]
    · obtain ⟨c', hc', -, hbytes, -⟩ := h.msgIn.channel
      cases hc.symm.trans hc'
      have hnil : c.array.bytes = [] :=
        List.eq_nil_of_length_eq_zero (by rw [IArray.bytes_length, hbytes, hzero])
      rw [hnil, overwrite, List.append_nil, List.length_nil, Nat.add_zero, List.take_append_drop]
    · obtain ⟨c, hc, -, hbytes, -⟩ := h.msgOut.channel
      refine ⟨c, hc, ?_⟩
      have hlength := h.finished.placed.arrayBytes_length
      rw [List.eq_nil_of_length_eq_zero (hlength.trans hzero)]
      exact List.eq_nil_of_length_eq_zero (by rw [IArray.bytes_length, hbytes, hzero])
  · obtain ⟨c, b, hc, hb, hlength, hread⟩ :=
      readFrom_spec h.finished.placed h.hasArray hpos h.msgIn
    have hsame := same_readFrom h.finished.placed hread
    have hexact := h.of_same hsame
    rw [hread]
    dsimp only
    have hmem : (if d.triggerMode then
        { d with mem := overwrite d.mem b.offset c.array.bytes }
      else (fillChannelsOut d.msgFields
        { d with mem := overwrite d.mem b.offset c.array.bytes }).computeOutput).mem =
        overwrite d.mem b.offset c.array.bytes := by
      split
      · rfl
      · rw [computeOutput_mem, (same_fillChannelsOut _ _).2]
    refine ⟨fun f hf hname c' hc' => ?_, fun _ c' hc' => ?_, fun hmode => ?_,
      fun hmode f hf _ => ?_⟩
    · cases hc.symm.trans hc'
      obtain ⟨⟨b', hb', -⟩, -⟩ := h.finished.parts f hf
      have hbuffer := h.buffer f hf (in_eq_channelMsgIn.mp hname)
      obtain ⟨hoffset, hsize⟩ := h.finished.offset_eq hf hbuffer hb' hb
      exact ⟨b', hb', hlength.trans hsize.symm, hoffset ▸ hmem⟩
    · cases hc.symm.trans hc'
      exact ⟨b, hb, hlength, hmem⟩
    · have hdirect : d.triggerMode = false := hmode
      rw [if_neg (by simp [hdirect])]
      exact hexact.fill_shows_message
    · have hdirect : d.triggerMode = false := hmode
      rw [if_neg (by simp [hdirect])]
      exact hexact.fill_shows hf

theorem Exact.agrees_field (h : d.Exact) {f : String × IMessageField} (hf : f ∈ d.msgFields)
    (hname : f.1 ≠ "buffer") : d.Agrees (f.1 ++ inSuffix) (d.handle (f.1 ++ inSuffix)) := by
  have hplaced := (h.finished.parts f hf).1
  have harray := (h.finished.fields f hf).1
  obtain ⟨c, b, hc, hb, hlength, hread⟩ := readFrom_spec hplaced harray (h.pos hf) (h.ins f hf)
  have hexact := h.of_same (same_readFrom hplaced hread)
  obtain ⟨d', hrefresh, hshows⟩ : ∃ d', DevMessage.refresh
      { d with mem := overwrite d.mem b.offset c.array.bytes } (f.1 ++ outSuffix) f.2 = some d' ∧
        d'.Shows (f.1 ++ outSuffix) f.2 := by
    rcases refresh_spec (hexact.finished.parts f hf).1 harray (hexact.outs f hf) with
      ⟨d', hrefresh, hshows, -⟩ | ⟨-, -, hzero⟩
    · exact ⟨d', hrefresh, hshows⟩
    · exact absurd (h.pos hf) (by omega)
  have hexact' := hexact.of_same (same_refresh hrefresh)
  have hhandle := handle_field h.finished hf hname
  rw [hread] at hhandle
  dsimp only at hhandle
  rw [hrefresh] at hhandle
  rw [hhandle]
  have hmem : (if d.triggerMode then { d with mem := overwrite d.mem b.offset c.array.bytes }
      else d'.computeOutput).mem = overwrite d.mem b.offset c.array.bytes := by
    split
    · rfl
    · rw [computeOutput_mem, refresh_mem hrefresh]
  have hmsgIn : f.1 ++ inSuffix ≠ channelMsgIn := fun heq => hname (in_eq_channelMsgIn.mp heq)
  have hunique : ∀ g ∈ d.msgFields, g.1 ++ inSuffix = f.1 ++ inSuffix → g = f := fun g hg hsame =>
    List.inj_on_of_nodup_map h.finished.names hg hf (in_inj.mp hsame)
  have hdirect : d.triggerMode = decide (f.1 ++ inSuffix = channelTrigger) →
      d.triggerMode = false := fun hmode => by
    rw [hmode, decide_eq_false (in_ne_channelTrigger f.1)]
  have hmsgPtr : d'.msgPtr = d.msgPtr := (same_refresh hrefresh).msgPtr
  have hfields : d'.msgFields = d.msgFields := (same_refresh hrefresh).msgFields
  refine ⟨fun g hg hsame c' hc' => ?_, fun heq => absurd heq hmsgIn, fun hmode => ?_,
    fun hmode g hg hrefreshed => ?_⟩
  · cases hunique g hg hsame
    cases hc.symm.trans hc'
    exact ⟨b, hb, hlength, hmem⟩
  · rw [hdirect hmode]
    exact hmsgPtr ▸ hexact'.computeOutput_shows
  · cases hunique g hg ((hrefreshed.resolve_left (in_ne_channelTrigger f.1)).resolve_left hmsgIn)
    rw [hdirect hmode]
    exact hexact'.shows_computeOutput (hfields.symm ▸ hg) hshows

/-- What the device is told of is handled. -/
theorem Exact.agrees (h : d.Exact) (hobserves : d.observes name = true) :
    d.Agrees name (d.handle name) := by
  simp only [observes, Bool.or_eq_true, decide_eq_true_eq, List.any_eq_true] at hobserves
  obtain (rfl | rfl) | ⟨f, hf, rfl⟩ := hobserves
  · exact h.agrees_trigger
  · exact h.agrees_message
  · by_cases hname : f.1 = "buffer"
    · rw [in_eq_channelMsgIn.mpr hname]
      exact h.agrees_message
    · exact h.agrees_field hf hname

/-- A channel that the device observes is not resizable. -/
theorem same_call {a : Action} {told : Bool}
    (hresizable : ∀ c, d.channels a.name = some c → c.resizable = false)
    (h : d.call a = some (d', told)) : Same d d' ∧ d.observes a.name = true := by
  cases a with
  | write name now view byteOffset =>
    rw [call] at h
    split at h
    · rename_i hobserves
      obtain ⟨c, hc, h⟩ := Option.bind_eq_some_iff.mp h
      obtain ⟨w, hw, h⟩ := Option.map_eq_some_iff.mp h
      obtain ⟨rfl, -⟩ := Prod.mk.injEq .. ▸ h
      exact ⟨.setChannel hc (write_shape (hresizable c hc) hw) d.notified, hobserves⟩
    · cases h
  | notify name =>
    rw [call] at h
    split at h
    · rename_i hobserves
      cases h
      exact ⟨.refl d, hobserves⟩
    · cases h

end Exact

/-- The observed channels are those of an exact device, and the trigger. -/
structure Sound (d : DevMessage) : Prop where
  exact : d.Exact
  trigger : d.Holds channelTrigger 1

section Sound

variable {d d' : DevMessage} {a : Action}

theorem Sound.of_same (h : d.Sound) (hsame : Same d d') : d'.Sound :=
  ⟨h.exact.of_same hsame, h.trigger.of_same hsame⟩

theorem Sound.resizable (h : d.Sound) {name : String} (hobserves : d.observes name = true)
    {c : Channel} (hc : d.channels name = some c) : c.resizable = false := by
  have hholds : ∃ n, d.Holds name n := by
    simp only [observes, Bool.or_eq_true, decide_eq_true_eq, List.any_eq_true] at hobserves
    obtain (rfl | rfl) | ⟨f, hf, rfl⟩ := hobserves
    · exact ⟨_, h.trigger⟩
    · exact ⟨_, h.exact.msgIn⟩
    · exact ⟨_, h.exact.ins f hf⟩
  obtain ⟨n, hn⟩ := hholds
  obtain ⟨c', hc', -, -, hresizable⟩ := hn.channel
  cases hc.symm.trans hc'
  exact hresizable

theorem Sound.same_call (h : d.Sound) {told : Bool} (hcall : d.call a = some (d', told)) :
    Same d d' ∧ d.observes a.name = true := by
  have hobserves : d.observes a.name = true := by
    cases a <;>
    · rw [call] at hcall
      split at hcall
      · assumption
      · cases hcall
  exact DevMessage.same_call (fun c hc => h.resizable hobserves hc) hcall

theorem Sound.step (h : d.Sound) (hstep : step d a = some d') : d'.Sound := by
  obtain ⟨⟨d₁, told⟩, hcall, rfl⟩ := Option.map_eq_some_iff.mp hstep
  have hsound := h.of_same (h.same_call hcall).1
  dsimp only
  split
  · exact hsound.of_same (same_handle hsound.exact.finished a.name)
  · exact hsound

end Sound

/-! ### The channels of `on_init` -/

section Init

variable {channels : String → Option Channel} {name key : String} {type : DataType} {size : Nat}
  {fields : List (String × IMessageField)}

end Init

section Start

variable {triggerMode : Bool} {msgPtr : IMessageField} {mem : List UInt8} {d : DevMessage}

end Start

end DevMessage

end Sihd.Core
