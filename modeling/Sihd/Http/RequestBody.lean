import Sihd.Http.ServerResponses
import Sihd.Util.Array
import Sihd.Util.ArrayRefinement

/-!
# Bodies of requests

The body of a request is collected in an array of the length that was announced, at a
position that is counted apart from it, and is then copied to the request. What is
returned when an array is resized, written or copied is not looked at: without memory the
request has no content.
-/

namespace Sihd.Util.ArrayMemory.ArrayState

/-- `copy_from_bytes`. The end of what is copied is a `size_t`. -/
def copyFromBytes (a : ArrayState UInt8) (buf : List UInt8) (slice : Slice) :
    Except Fault (Bool × ArrayState UInt8) :=
  let range := slice.resolve a.size
  if range.stop ≤ range.start ∨ a.size < (range.start + buf.length) % 2 ^ 64 then .ok (false, a)
  else (a.write range.start buf).map fun a => (true, a)

def copyFrom (a : ArrayState UInt8) (buf : List UInt8) (byteOffset : Nat) :
    Except Fault (Bool × ArrayState UInt8) :=
  a.copyFromBytes buf (Slice.ofCast byteOffset)

variable {o : Option (Given UInt8)} {n : Nat}

/-- An array of bytes in a block of its size. -/
def full (cells : List UInt8) : ArrayState UInt8 :=
  ⟨.block cells, cells.length, cells.length, true⟩

theorem toList_full (cells : List UInt8) : (full cells).toList = cells := List.take_length

theorem length_granted {given : Given UInt8} (h : granted o n = some given) : n < 2 ^ 63 := by
  rw [granted] at h
  split at h
  · assumption
  · cases h

theorem realloc_null (hlt : n < 2 ^ 64) :
    realloc byteElement o .null (n * byteElement.dataSize % 2 ^ 64) =
      .ok ((granted o n).map fun given =>
        ((List.range n).map given.garbage, given.moved), .null) := by
  have hbytes : n * byteElement.dataSize % 2 ^ 64 = n := by
    rw [byteElement, Nat.mul_one, Nat.mod_eq_of_lt hlt]
  have hcells : n / byteElement.dataSize = n := Nat.div_one n
  rw [realloc, hbytes, hcells]
  simp [resized]

theorem internalReserve_none (hlt : n < 2 ^ 64) (h : granted o n = none) (clearMem : Bool) :
    ({} : ArrayState UInt8).internalReserve byteElement o n clearMem = .ok (false, false, {}) := by
  have hwanted : ({} : ArrayState UInt8).wantedCapacity n = .ok n := rfl
  rw [internalReserve, hwanted]
  simp only [bind, Except.bind, realloc_null hlt, h]
  rfl

theorem internalReserve_some {given : Given UInt8} (h : granted o n = some given)
    (clearMem : Bool) :
    ({} : ArrayState UInt8).internalReserve byteElement o n clearMem =
      .ok (true, given.moved, ⟨.block (if clearMem then List.replicate n 0
        else (List.range n).map given.garbage), 0, n, true⟩) := by
  have hlt : n < 2 ^ 63 := length_granted h
  have hwanted : ({} : ArrayState UInt8).wantedCapacity n = .ok n := rfl
  have hcleared : (n - 0) * byteElement.dataSize % 2 ^ 64 / byteElement.dataSize = n := by
    rw [byteElement, Nat.mul_one, Nat.div_one, Nat.sub_zero, Nat.mod_eq_of_lt (by omega)]
  rw [internalReserve, hwanted]
  simp only [bind, Except.bind, realloc_null (show n < 2 ^ 64 by omega), h, Option.map_some,
    hcleared]
  cases clearMem with
  | false => simp
  | true =>
    cases n with
    | zero => simp
    | succ n => simp [writeCells, overwrite, byteElement]

theorem resize_none (hlt : n < 2 ^ 64) (h : granted o n = none) :
    ({} : ArrayState UInt8).resize byteElement o n = .ok (0 == n, {}) := by
  rw [resize, internalResize]
  simp [isNull, internalReserve_none hlt h, bind, Except.bind, Except.map]

theorem resize_some {given : Given UInt8} (h : granted o n = some given) :
    ({} : ArrayState UInt8).resize byteElement o n = .ok (true, full (List.replicate n 0)) := by
  rw [resize, internalResize]
  simp [isNull, internalReserve_some h, bind, Except.bind, Except.map, full]

theorem from_none {xs : List UInt8} (hlt : xs.length < 2 ^ 64)
    (h : granted o xs.length = none) :
    ({} : ArrayState UInt8).from byteElement o (.outside xs) = .ok (false, {}) := by
  have hdelete : ({} : ArrayState UInt8).deleteLent = .ok {} := rfl
  rw [«from», hdelete]
  cases xs with
  | nil =>
    have hreserve := internalReserve_none hlt h false
    rw [List.length_nil] at hreserve
    simp [internalResize, isNull, Source.length, hreserve, bind, Except.bind, readSource,
      Source.read, write]
  | cons c xs =>
    have hreserve := internalReserve_none hlt h false
    rw [List.length_cons] at hreserve
    simp [internalResize, isNull, Source.length, hreserve, bind, Except.bind]

theorem from_some {xs : List UInt8} {given : Given UInt8} (h : granted o xs.length = some given) :
    ({} : ArrayState UInt8).from byteElement o (.outside xs) = .ok (true, full xs) := by
  have hdelete : ({} : ArrayState UInt8).deleteLent = .ok {} := rfl
  rw [«from», hdelete]
  simp [internalResize, isNull, Source.length, internalReserve_some h, bind, Except.bind,
    readSource, Source.read, write, writeCells, overwrite, Except.map, full]

/-- A new array has the bytes, or nothing without memory. -/
theorem exists_from (o : Option (Given UInt8)) {xs : List UInt8} (hlt : xs.length < 2 ^ 64) :
    ∃ done a, ({} : ArrayState UInt8).from byteElement o (.outside xs) = .ok (done, a) ∧
      a.toList = if granted o xs.length = none then [] else xs := by
  cases h : granted o xs.length with
  | none => exact ⟨false, {}, from_none hlt h, rfl⟩
  | some given => exact ⟨true, full xs, from_some h, toList_full xs⟩

/-! ### Copies -/

theorem resolve_zero (slice : Slice) : slice.resolve 0 = ⟨0, 0⟩ := by
  simp only [Slice.resolve]
  split_ifs <;> first | rfl | omega

/-- Nothing is copied to an array that has no memory. -/
theorem copyFrom_empty (buf : List UInt8) (byteOffset : Nat) :
    ({} : ArrayState UInt8).copyFrom buf byteOffset = .ok (false, {}) := by
  rw [copyFrom, copyFromBytes, resolve_zero]
  simp

theorem start_resolve_le (slice : Slice) (size : Nat) : (slice.resolve size).start ≤ size := by
  simp only [Slice.resolve]
  split_ifs <;> simp only [] <;> omega

theorem write_full {cells buf : List UInt8} {k : Nat} (h : k + buf.length ≤ cells.length) :
    (full cells).write k buf = .ok (full (overwrite cells k buf)) := by
  simp [full, write, writeCells, h, Except.map, overwrite_length h]

/-- A copy to a block is made or left out. -/
theorem copyFrom_full (cells : List UInt8) (hcells : cells.length < 2 ^ 63) (buf : ArrByteView)
    (byteOffset : Nat) :
    (full cells).copyFrom buf.bytes byteOffset =
      let range := (Slice.ofCast byteOffset).resolve cells.length
      if range.stop ≤ range.start ∨ cells.length < range.start + buf.bytes.length then
        .ok (false, full cells)
      else .ok (true, full (overwrite cells range.start buf.bytes)) := by
  have hstart : ((Slice.ofCast byteOffset).resolve cells.length).start ≤ cells.length :=
    start_resolve_le _ _
  have haddressable := buf.addressable
  have hsize : (full cells).size = cells.length := rfl
  rw [copyFrom, copyFromBytes, hsize]
  generalize (Slice.ofCast byteOffset).resolve cells.length = range at hstart
  simp only
  rw [Nat.mod_eq_of_lt (by omega)]
  split
  · rfl
  · next h =>
    rw [write_full (by omega)]
    rfl

/-- What is copied to a block stays in it, wherever it begins. -/
theorem exists_copyFrom_full {cells : List UInt8} (hcells : cells.length < 2 ^ 63)
    (buf : ArrByteView) (byteOffset : Nat) :
    ∃ copied cells', (full cells).copyFrom buf.bytes byteOffset = .ok (copied, full cells') ∧
      cells'.length = cells.length := by
  rw [copyFrom_full cells hcells]
  simp only
  split
  · exact ⟨false, cells, rfl, rfl⟩
  · next h => exact ⟨true, _, rfl, overwrite_length (by omega)⟩

/-- What fits behind what was copied is copied behind it. -/
theorem copyFrom_behind {copied : List UInt8} {buf : ArrByteView} {n : Nat}
    (hfits : copied.length + buf.bytes.length ≤ n) (hn : n < 2 ^ 63) :
    ∃ done, (full (copied ++ List.replicate (n - copied.length) 0)).copyFrom buf.bytes
        copied.length =
      .ok (done, full (copied ++ buf.bytes ++
        List.replicate (n - (copied ++ buf.bytes).length) 0)) := by
  have hlength : (copied ++ List.replicate (n - copied.length) (0 : UInt8)).length = n := by
    simp
    omega
  rw [copyFrom_full _ (hlength.trans_lt hn), hlength, Slice.ofCast_of_lt (by omega)]
  by_cases hlt : copied.length < n
  · rw [Slice.resolve_ofOffset_of_lt hlt]
    simp only
    rw [if_neg (by omega)]
    have hcopied : overwrite (copied ++ List.replicate (n - copied.length) 0) copied.length
        buf.bytes = copied ++ buf.bytes ++
          List.replicate (n - (copied ++ buf.bytes).length) 0 := by
      rw [overwrite, List.take_left, ← List.drop_drop, List.drop_left, List.drop_replicate,
        List.length_append, Nat.sub_sub]
    exact ⟨true, by rw [hcopied]⟩
  · have hempty : buf.bytes = [] := List.eq_nil_of_length_eq_zero (by omega)
    rw [Slice.resolve_ofOffset_of_ge (by omega), hempty]
    exact ⟨false, by simp⟩

end Sihd.Util.ArrayMemory.ArrayState

namespace Sihd.Http

open Util ArrayMemory

/-- What a session keeps of a request that has a body. -/
structure BodySession where
  content : Option (ArrayState UInt8) := none
  contentSize : Nat := 0
  request : Option ServedRequest := none

/-- What is given for the array of a session, and for the one of its request. -/
structure Memory where
  session : Option (Given UInt8)
  request : Option (Given UInt8)

/-- A request for a web service, with the length of its body. -/
structure AnnouncedRequest {A H : Type} (srv : HttpServer A H) where
  request : ServedRequest
  service : WebService A H
  found : srv.getWebserviceFromPath request.url = some service
  length : Nat
  pos : 0 < length
  fits : length < 2 ^ 64

namespace BodySession

variable {A H : Type} (srv : HttpServer A H) (mem : Memory)

def newRequest (_ : BodySession) : BodySession := {}

/-- `check_webservices` for a body that is not empty. -/
def announce (_ : BodySession) (r : AnnouncedRequest srv) : Except Fault BodySession := do
  let (_, content) ← ({} : ArrayState UInt8).resize byteElement mem.session r.length
  .ok { content := some content, contentSize := 0, request := some r.request }

def onHttpBody (s : BodySession) (buf : ArrByteView) : Except Fault BodySession :=
  match s.content with
  | none => .ok s
  | some content => do
    let (_, content) ← content.copyFrom buf.bytes s.contentSize
    .ok { s with
      content := some content
      contentSize := (s.contentSize + buf.bytes.length) % 2 ^ 64 }

/-- The request that a web service is given, if any. -/
def onHttpBodyEnd (s : BodySession) :
    Except Fault (Option (WebService A H × ServedRequest) × BodySession) :=
  match s.request, s.content with
  | some request, some content => do
    let (_, array) ← ({} : ArrayState UInt8).from byteElement mem.request
      (.outside content.toList)
    let request := { request with content := array.toList }
    .ok ((srv.getWebserviceFromPath request.url).map fun service => (service, request),
      s.newRequest)
  | _, _ => .ok (none, s)

/-- A request and its body, in a session that may have served other ones. -/
def receive (s : BodySession) (r : AnnouncedRequest srv) (chunks : List ArrByteView) :
    Except Fault (Option (WebService A H × ServedRequest) × BodySession) := do
  let s ← s.newRequest.announce srv mem r
  let s ← chunks.foldlM onHttpBody s
  s.onHttpBodyEnd srv mem

/-! ### The end of a body -/

variable {srv mem}

theorem onHttpBodyEnd_eq {r : AnnouncedRequest srv} {s : BodySession} {content : ArrayState UInt8}
    (hrequest : s.request = some r.request) (hcontent : s.content = some content)
    (hlt : content.toList.length < 2 ^ 64) :
    s.onHttpBodyEnd srv mem = .ok (some (r.service, { r.request with
      content := if granted mem.request content.toList.length = none then []
        else content.toList }), {}) := by
  obtain ⟨done, array, hfrom, hlist⟩ := ArrayState.exists_from mem.request hlt
  rw [onHttpBodyEnd, hrequest, hcontent]
  simp only [bind, Except.bind, hfrom, hlist, r.found]
  rfl

/-- What a chunk preserves is preserved by all of them. -/
theorem exists_foldlM {P : BodySession → Prop}
    (hstep : ∀ s, P s → ∀ buf, ∃ s', s.onHttpBody buf = .ok s' ∧ P s')
    (chunks : List ArrByteView) {s : BodySession} (h : P s) :
    ∃ s', chunks.foldlM onHttpBody s = .ok s' ∧ P s' := by
  induction chunks generalizing s with
  | nil => exact ⟨s, rfl, h⟩
  | cons buf chunks ih =>
    obtain ⟨s₁, hs₁, h₁⟩ := hstep s h buf
    obtain ⟨s₂, hs₂, h₂⟩ := ih h₁
    refine ⟨s₂, ?_, h₂⟩
    rw [List.foldlM_cons, hs₁]
    exact hs₂

/-- A request whose session is as it should be before the end of the body. -/
theorem receive_eq {s s₁ s₂ : BodySession} {r : AnnouncedRequest srv} {chunks : List ArrByteView}
    (hannounce : s.newRequest.announce srv mem r = .ok s₁)
    (hchunks : chunks.foldlM onHttpBody s₁ = .ok s₂) :
    s.receive srv mem r chunks = s₂.onHttpBodyEnd srv mem := by
  rw [receive, hannounce]
  change (do
    let s ← chunks.foldlM onHttpBody s₁
    s.onHttpBodyEnd srv mem) = _
  rw [hchunks]
  rfl

/-! ### Any chunks -/

/-- The array of a session has no memory, or a block of its size. -/
def IsHeld (request : ServedRequest) (s : BodySession) : Prop :=
  s.request = some request ∧ ∃ content, s.content = some content ∧
    (content = {} ∨ ∃ cells, content = .full cells ∧ cells.length < 2 ^ 63)

theorem isHeld_announce (mem : Memory) (s : BodySession) (r : AnnouncedRequest srv) :
    ∃ s', s.announce srv mem r = .ok s' ∧ IsHeld r.request s' := by
  rw [announce]
  cases h : granted mem.session r.length with
  | none =>
    rw [ArrayState.resize_none r.fits h]
    exact ⟨_, rfl, rfl, {}, rfl, .inl rfl⟩
  | some given =>
    rw [ArrayState.resize_some h]
    refine ⟨_, rfl, rfl, _, rfl, .inr ⟨_, rfl, ?_⟩⟩
    rw [List.length_replicate]
    exact ArrayState.length_granted h

theorem isHeld_onHttpBody {request : ServedRequest} {s : BodySession} (h : IsHeld request s)
    (buf : ArrByteView) : ∃ s', s.onHttpBody buf = .ok s' ∧ IsHeld request s' := by
  obtain ⟨hrequest, content, hcontent, hblock⟩ := h
  rw [onHttpBody, hcontent]
  rcases hblock with rfl | ⟨cells, rfl, hcells⟩
  · simp only [ArrayState.copyFrom_empty]
    exact ⟨_, rfl, hrequest, {}, rfl, .inl rfl⟩
  · obtain ⟨copied, cells', hcopy, hlength⟩ :=
      ArrayState.exists_copyFrom_full hcells buf s.contentSize
    simp only [hcopy]
    exact ⟨_, rfl, hrequest, _, rfl, .inr ⟨cells', rfl, hlength ▸ hcells⟩⟩

/-- No chunks are written outside of the array of a session, with or without memory. -/
theorem receive_ne_error (mem : Memory) (s : BodySession) (r : AnnouncedRequest srv)
    (chunks : List ArrByteView) : ∃ content s', s.receive srv mem r chunks =
      .ok (some (r.service, { r.request with content := content }), s') := by
  obtain ⟨s₁, hs₁, h₁⟩ := isHeld_announce mem s.newRequest r
  obtain ⟨s₂, hs₂, hrequest, content, hcontent, hblock⟩ :=
    exists_foldlM (fun s h buf => isHeld_onHttpBody h buf) chunks h₁
  have hlt : content.toList.length < 2 ^ 64 := by
    rcases hblock with rfl | ⟨cells, rfl, hcells⟩
    · exact Nat.two_pow_pos 64
    · rw [ArrayState.toList_full]
      omega
  rw [receive_eq hs₁ hs₂]
  exact ⟨_, _, onHttpBodyEnd_eq hrequest hcontent hlt⟩

/-! ### Without memory -/

/-- Without memory for its body a request is given none of it. -/
theorem receive_of_session_none {r : AnnouncedRequest srv}
    (h : granted mem.session r.length = none) (s : BodySession) (chunks : List ArrByteView) :
    s.receive srv mem r chunks = .ok (some (r.service, { r.request with content := [] }), {}) := by
  have hannounce : s.newRequest.announce srv mem r = .ok ⟨some {}, 0, some r.request⟩ := by
    rw [announce, ArrayState.resize_none r.fits h]
    rfl
  have hkeeps : ∀ s : BodySession, s.request = some r.request ∧ s.content = some {} →
      ∀ buf, ∃ s', s.onHttpBody buf = .ok s' ∧ s'.request = some r.request ∧
        s'.content = some {} := by
    rintro s ⟨hrequest, hcontent⟩ buf
    rw [onHttpBody, hcontent]
    simp only [ArrayState.copyFrom_empty]
    exact ⟨_, rfl, hrequest, rfl⟩
  obtain ⟨s₂, hs₂, hrequest, hcontent⟩ := exists_foldlM hkeeps chunks
    (show (⟨some {}, 0, some r.request⟩ : BodySession).request = some r.request ∧ _ from ⟨rfl, rfl⟩)
  have hnil : ({} : ArrayState UInt8).toList = [] := rfl
  rw [receive_eq hannounce hs₂, onHttpBodyEnd_eq hrequest hcontent (Nat.two_pow_pos 64), hnil,
    ite_self]

/-! ### The chunks of a body -/

/-- A session that has so many bytes of a body of length `n`. -/
def collecting (request : ServedRequest) (n : Nat) (copied : List UInt8) : BodySession where
  content := some (.full (copied ++ List.replicate (n - copied.length) 0))
  contentSize := copied.length
  request := some request

theorem announce_of_some {r : AnnouncedRequest srv} {given : Given UInt8}
    (h : granted mem.session r.length = some given) (s : BodySession) :
    s.announce srv mem r = .ok (collecting r.request r.length []) := by
  rw [announce, ArrayState.resize_some h]
  rfl

theorem onHttpBody_collecting {request : ServedRequest} {n : Nat} {copied : List UInt8}
    {buf : ArrByteView} (hfits : copied.length + buf.bytes.length ≤ n) (hn : n < 2 ^ 63) :
    (collecting request n copied).onHttpBody buf =
      .ok (collecting request n (copied ++ buf.bytes)) := by
  obtain ⟨done, hcopy⟩ := ArrayState.copyFrom_behind hfits hn
  have hsize : (copied.length + buf.bytes.length) % 2 ^ 64 = (copied ++ buf.bytes).length := by
    rw [List.length_append, Nat.mod_eq_of_lt (by omega)]
  simp only [onHttpBody, collecting, hcopy, hsize]
  rfl

theorem foldlM_collecting {request : ServedRequest} {n : Nat} (hn : n < 2 ^ 63)
    (chunks : List ArrByteView) {copied : List UInt8}
    (hfits : (copied ++ chunks.flatMap ArrByteView.bytes).length ≤ n) :
    chunks.foldlM onHttpBody (collecting request n copied) =
      .ok (collecting request n (copied ++ chunks.flatMap ArrByteView.bytes)) := by
  induction chunks generalizing copied with
  | nil =>
    rw [List.flatMap_nil, List.append_nil]
    rfl
  | cons buf chunks ih =>
    rw [List.flatMap_cons, ← List.append_assoc] at hfits ⊢
    have hbuf : copied.length + buf.bytes.length ≤ n := by
      rw [List.length_append, List.length_append] at hfits
      omega
    rw [List.foldlM_cons, onHttpBody_collecting hbuf hn]
    exact ih hfits

/-- With memory the request is given the chunks, if there is memory for the copy. -/
theorem receive_of_session_some {r : AnnouncedRequest srv} {given : Given UInt8}
    (h : granted mem.session r.length = some given) (s : BodySession) {chunks : List ArrByteView}
    (hchunks : (chunks.flatMap ArrByteView.bytes).length = r.length) :
    s.receive srv mem r chunks = .ok (some (r.service, { r.request with
      content := if granted mem.request r.length = none then []
        else chunks.flatMap ArrByteView.bytes }), {}) := by
  have hn := ArrayState.length_granted h
  generalize hbody : chunks.flatMap ArrByteView.bytes = body at hchunks
  have hfold : chunks.foldlM onHttpBody (collecting r.request r.length []) =
      .ok (collecting r.request r.length body) := by
    rw [foldlM_collecting hn chunks (by rw [List.nil_append, hbody, hchunks]), List.nil_append,
      hbody]
  have hlist : (ArrayState.full (body ++ List.replicate (r.length - body.length) 0)).toList =
      body := by
    rw [ArrayState.toList_full, hchunks, Nat.sub_self, List.replicate_zero, List.append_nil]
  have hend : (collecting r.request r.length body).onHttpBodyEnd srv mem = _ :=
    onHttpBodyEnd_eq rfl rfl (by rw [hlist]; omega)
  rw [receive_eq (announce_of_some h _) hfold, hend, hlist, hchunks]

/-- However a body is cut, the web service is given its bytes; and no chunks are written outside
of the array of the session. -/
structure Delivers (mem : Memory) (r : AnnouncedRequest srv) : Prop where
  exact : ∀ (s : BodySession) (chunks : List ArrByteView),
    (chunks.flatMap ArrByteView.bytes).length = r.length →
      s.receive srv mem r chunks = .ok (some (r.service, { r.request with
        content := chunks.flatMap ArrByteView.bytes }), {})
  inside : ∀ (s : BodySession) (chunks : List ArrByteView),
    s.receive srv mem r chunks ≠ .error .invalid

/-- A body can be cut into its bytes. -/
theorem exists_chunks (n : Nat) :
    ∃ chunks : List ArrByteView, (chunks.flatMap ArrByteView.bytes).length = n := by
  refine ⟨List.replicate n ⟨[0], by decide⟩, ?_⟩
  simp [List.length_flatMap]

theorem delivers_iff (mem : Memory) (r : AnnouncedRequest srv) :
    Delivers mem r ↔ granted mem.session r.length ≠ none ∧ granted mem.request r.length ≠ none := by
  constructor
  · intro hdelivers
    obtain ⟨chunks, hchunks⟩ := exists_chunks r.length
    have hne : chunks.flatMap ArrByteView.bytes ≠ [] := by
      intro hnil
      have hpos := r.pos
      rw [hnil, List.length_nil] at hchunks
      omega
    have hempty : BodySession.receive srv mem {} r chunks ≠ .ok (some (r.service,
        { r.request with content := [] }), {}) := by
      intro hreceive
      rw [hdelivers.exact {} chunks hchunks] at hreceive
      have hcontent := congrArg (·.toOption.map fun out => out.1.map (·.2.content)) hreceive
      exact hne (by simpa [Except.toOption] using hcontent)
    have hsession : granted mem.session r.length ≠ none :=
      fun hnone => hempty (receive_of_session_none hnone {} chunks)
    obtain ⟨given, hgiven⟩ := Option.ne_none_iff_exists'.mp hsession
    refine ⟨hsession, fun hnone => hempty ?_⟩
    rw [receive_of_session_some hgiven {} hchunks, if_pos hnone]
  · rintro ⟨hsession, hrequest⟩
    obtain ⟨given, hgiven⟩ := Option.ne_none_iff_exists'.mp hsession
    refine ⟨fun s chunks hchunks => ?_, fun s chunks herror => ?_⟩
    · rw [receive_of_session_some hgiven s hchunks, if_neg hrequest]
    · obtain ⟨content, s', hreceive⟩ := receive_ne_error mem s r chunks
      rw [hreceive] at herror
      cases herror

end BodySession

/-- A server of one web service without routes. -/
def uploadServer : HttpServer Unit Unit where
  rootDir := []
  resourcesPath := []
  webservice _ := some ⟨none, ⟨fun _ => none⟩⟩
  httpAuthenticator := none
  mimeTypes := .empty
  encoding := []
  defaultServerName := []
  defaultCorsOrigin := []
  page404Path := []

/-- `POST /a/b` with a body of one byte. -/
def uploadRequest : AnnouncedRequest uploadServer where
  request := .ofLine [47, 97, 47, 98] [] .post
  service := ⟨none, ⟨fun _ => none⟩⟩
  found := rfl
  length := 1
  pos := Nat.one_pos
  fits := by decide

/-- Without memory a request of one byte is given without it. -/
theorem not_delivers_uploadRequest : ¬ BodySession.Delivers ⟨none, none⟩ uploadRequest := by
  intro h
  have hexact := h.exact {} [⟨[120], by decide⟩] rfl
  rw [BodySession.receive_of_session_none rfl] at hexact
  have hcontent := congrArg (·.toOption.map fun out => out.1.map (·.2.content)) hexact
  simp [Except.toOption] at hcontent

end Sihd.Http
