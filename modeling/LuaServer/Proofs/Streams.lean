/-
# A connection and the cuts of its stream

A stream of bytes holds a sequence of frames and then, perhaps, a header that announces no length.  What
comes before that header is the same however the stream is cut into chunks.  What the session gets to see
of it is not: bodies that one read completes are handed on after the read, and a read that comes upon a
bad header hands on nothing.  So the frames are those that are delivered and then those that are lost with
the bad header (`frames_eq_delivered_append_lost`), and the outcome of a connection depends on the cuts
only through what is lost.

Main result: `serve_cut`.
-/
import LuaServer.Proofs.Framing
import LuaServer.Proofs.Survival

namespace LuaServer
namespace FrameReader

/-! ## 1. The frames of a stream -/

/-- The bodies of the frames in a buffer, up to the first header that announces no length, and what is
wrong with that header. -/
def frames (buffer : Bytes) (expected : Option Nat) : List Bytes × Option FrameError :=
  match expected with
  | none =>
    match h : splitAtFirst? headerEnd buffer with
    | none => ([], none)
    | some (header, rest) =>
      have : rest.length < buffer.length := length_lt_of_header h
      match contentLength header with
      | .error e => ([], some e)
      | .ok n => frames rest (some n)
  | some n =>
    if buffer.length < n then ([], none)
    else
      let more := frames (buffer.drop n) none
      (buffer.take n :: more.1, more.2)
termination_by (buffer.length, if expected.isSome then 1 else 0)
decreasing_by
  · simp only [Prod.lex_def]
    left
    assumption
  · simp only [Prod.lex_def, List.length_drop, Option.isSome_some, Option.isSome_none]
    by_cases hn : n = 0
    · right
      simp [hn]
    · left
      omega

section
variable {buffer header rest : Bytes} {n : Nat}

theorem frames_open (h : splitAtFirst? headerEnd buffer = none) : frames buffer none = ([], none) := by
  rw [frames]
  split
  · rfl
  · next hsome => rw [h] at hsome; cases hsome

theorem frames_bad {e : FrameError} (h : splitAtFirst? headerEnd buffer = some (header, rest))
    (he : contentLength header = .error e) : frames buffer none = ([], some e) := by
  rw [frames]
  split
  · next hnone => rw [h] at hnone; cases hnone
  · next hsome =>
    rw [h] at hsome
    cases hsome
    simp only [he]

theorem frames_header (h : splitAtFirst? headerEnd buffer = some (header, rest))
    (hn : contentLength header = .ok n) : frames buffer none = frames rest (some n) := by
  rw [frames]
  split
  · next hnone => rw [h] at hnone; cases hnone
  · next hsome =>
    rw [h] at hsome
    cases hsome
    simp only [hn]

theorem frames_short (h : buffer.length < n) : frames buffer (some n) = ([], none) := by
  rw [frames.eq_def]
  simp only [if_pos h]

theorem frames_body (h : ¬buffer.length < n) :
    frames buffer (some n)
      = (buffer.take n :: (frames (buffer.drop n) none).1, (frames (buffer.drop n) none).2) := by
  rw [frames.eq_def]
  simp only [if_neg h]

end

/-- **The frames of a buffer and of more bytes after it.**  If the reader gets through the buffer, they are
the bodies that it took, and then the frames that begin where it stopped.  If it does not, it has met the
bad header. -/
theorem frames_append (more buffer : Bytes) (expected : Option Nat) (done : List Bytes) :
    match drain buffer expected done with
    | (.ok bodies, r) => ∃ taken, bodies = done.reverse ++ taken ∧
        frames (buffer ++ more) expected = (taken ++ (frames (r.buffer ++ more) r.expected).1,
          (frames (r.buffer ++ more) r.expected).2)
    | (.error e, _) => frames (buffer ++ more) expected = ((frames buffer expected).1, some e) := by
  induction buffer, expected, done using drain.induct with
  | case1 buffer done h =>
    rw [drain_open h]
    exact ⟨[], by simp, by simp⟩
  | case2 buffer done header rest h _ e he =>
    rw [drain_bad h he]
    dsimp only
    rw [frames_bad (splitAtFirst?_append h more) he, frames_bad h he]
  | case3 buffer done header rest h _ n hn ih =>
    rw [drain_header h hn, frames_header h hn, frames_header (splitAtFirst?_append h more) hn]
    exact ih
  | case4 buffer done n hshort =>
    rw [drain_short hshort]
    exact ⟨[], by simp, by simp⟩
  | case5 buffer done n hlong ih =>
    have hlong' : ¬(buffer ++ more).length < n := by
      rw [List.length_append]
      omega
    have hsplit : frames (buffer ++ more) (some n) = (buffer.take n :: (frames (buffer.drop n ++ more) none).1,
        (frames (buffer.drop n ++ more) none).2) := by
      rw [frames_body hlong', List.drop_append_of_le_length (by omega),
        List.take_append_of_le_length (by omega)]
    rw [drain_body hlong, frames_body hlong, hsplit]
    split at ih
    · obtain ⟨taken, rfl, hframes⟩ := ih
      exact ⟨buffer.take n :: taken, by simp, by rw [hframes]; rfl⟩
    · rw [ih]

/-- The same for one read. -/
theorem frames_feed (r : FrameReader) (chunk more : Bytes) :
    match r.feed chunk with
    | (.ok bodies, r') => frames (r.buffer ++ (chunk ++ more)) r.expected
        = (bodies ++ (frames (r'.buffer ++ more) r'.expected).1, (frames (r'.buffer ++ more) r'.expected).2)
    | (.error e, _) => frames (r.buffer ++ (chunk ++ more)) r.expected
        = ((frames (r.buffer ++ chunk) r.expected).1, some e) := by
  have h := frames_append more (r.buffer ++ chunk) r.expected []
  rw [List.append_assoc] at h
  rw [feed]
  split at h
  · obtain ⟨taken, rfl, hframes⟩ := h
    simpa using hframes
  · exact h

/-- A reader that stopped without a bad header holds no frame. -/
theorem frames_nil_of_drain {buffer : Bytes} {expected : Option Nat} {done bodies : List Bytes}
    {r : FrameReader} (h : drain buffer expected done = (.ok bodies, r)) :
    frames r.buffer r.expected = ([], none) := by
  induction buffer, expected, done using drain.induct with
  | case1 buffer done hopen =>
    rw [drain_open hopen] at h
    cases h
    exact frames_open hopen
  | case2 buffer done header rest hend _ e he =>
    rw [drain_bad hend he] at h
    cases h
  | case3 buffer done header rest hend _ n hn ih => exact ih (drain_header hend hn ▸ h)
  | case4 buffer done n hshort =>
    rw [drain_short hshort] at h
    cases h
    exact frames_short hshort
  | case5 buffer done n hlong ih => exact ih (drain_body hlong ▸ h)

theorem Settled.frames_nil {r : FrameReader} (h : r.Settled) :
    frames r.buffer r.expected = ([], none) := by
  cases h with
  | fresh => exact frames_open (by decide)
  | feed _ hfeed => exact frames_nil_of_drain hfeed

/-! ## 2. What is delivered -/

/-- The bodies that the reads of a stream hand on.  After a bad header nothing is read. -/
def delivered (r : FrameReader) : List Bytes → List Bytes
  | [] => []
  | chunk :: chunks =>
    match r.feed chunk with
    | (.ok bodies, r) => bodies ++ delivered r chunks
    | (.error _, _) => []

/-- The bodies that are lost: the read that completes them comes upon a bad header. -/
def lost (r : FrameReader) : List Bytes → List Bytes
  | [] => []
  | chunk :: chunks =>
    match r.feed chunk with
    | (.ok _, r) => lost r chunks
    | (.error _, _) => (frames (r.buffer ++ chunk) r.expected).1

/-- **The frames of a stream are those that are delivered and then those that are lost,** and without a
bad header none is. -/
theorem frames_eq_delivered_append_lost : ∀ {r : FrameReader} (reads : List Bytes), r.Settled →
    (frames (r.buffer ++ reads.flatten) r.expected).1 = delivered r reads ++ lost r reads ∧
      ((frames (r.buffer ++ reads.flatten) r.expected).2 = none → lost r reads = [])
  | r, [], h => by
    rw [List.flatten_nil, List.append_nil, h.frames_nil]
    exact ⟨rfl, fun _ => rfl⟩
  | r, chunk :: reads, h => by
    have hfeed := frames_feed r chunk reads.flatten
    rw [List.flatten_cons, delivered, lost]
    split at hfeed
    · next bodies r' heq =>
      obtain ⟨hbodies, hlost⟩ := frames_eq_delivered_append_lost reads (h.feed heq)
      rw [hfeed, hbodies, List.append_assoc]
      exact ⟨rfl, hlost⟩
    · rw [hfeed]
      exact ⟨rfl, by simp⟩

end FrameReader

/-! ## 3. Reads -/

theorem piecesOf_ne_nil {chunk : Bytes} (h : chunk ≠ []) : ∀ piece ∈ piecesOf chunk, piece ≠ [] := by
  fun_induction piecesOf chunk with
  | case1 chunk hshort => simpa using h
  | case2 chunk hlong ih =>
    have hsize : readSize = 65536 := rfl
    have hrest : chunk.drop readSize ≠ [] := by
      rw [ne_eq, List.drop_eq_nil_iff]
      exact hlong
    intro piece hpiece
    rcases List.mem_cons.mp hpiece with rfl | hpiece
    · rw [ne_eq, List.take_eq_nil_iff]
      exact not_or.mpr ⟨by omega, h⟩
    · exact ih hrest piece hpiece

/-- Short chunks take one read each. -/
theorem readsOf_short {chunks : List Bytes} (h : ∀ chunk ∈ chunks, chunk.length ≤ readSize) :
    readsOf chunks = chunks := by
  induction chunks with
  | nil => rfl
  | cons chunk chunks ih =>
    obtain ⟨hchunk, hchunks⟩ := List.forall_mem_cons.mp h
    have hrest : chunks.flatMap piecesOf = chunks := ih hchunks
    rw [readsOf, List.flatMap_cons, hrest, piecesOf, if_pos hchunk, List.singleton_append]

/-- Chunks that are not empty take reads that are not empty. -/
theorem readsOf_ne_nil {chunks : List Bytes} (h : ∀ chunk ∈ chunks, chunk ≠ []) :
    ∀ read ∈ readsOf chunks, read ≠ [] := by
  intro read hread
  obtain ⟨chunk, hchunk, hread⟩ := List.mem_flatMap.mp hread
  exact piecesOf_ne_nil (h chunk hchunk) read hread

/-! ## 4. Connections -/

section
variable {σ τ : Type}

/-- How a connection ends whose stream has, or has not, a bad header: one whose length has too many digits
brings it down. -/
def endingFor : Option FrameError → Option Failure
  | some (.tooManyDigits n) => some (.crashed (.tooManyDigits n))
  | _ => none

/-- The world after the end of a connection. -/
def closedFor (bad : Option FrameError) (w : World σ τ) : World σ τ :=
  let close (level : Level) (message : Text) : World σ τ :=
    { w with session := { w.session with running := false }, log := w.log ++ [⟨level, message, none⟩] }
  match bad with
  | none => close .info (text "input closed")
  | some (.tooManyDigits _) => w
  | some e => close .error (text "closing connection on framing error: " ++ e.message)

@[simp] theorem closedFor_sent (bad : Option FrameError) (w : World σ τ) :
    (closedFor bad w).sent = w.sent := by
  rcases bad with _ | _ | _ | _ <;> rfl

theorem handleAll_append {srv : Server σ τ} {first : List Bytes} {w : World σ τ}
    (h : (handleAll srv w first).1 = none) (rest : List Bytes) :
    handleAll srv w (first ++ rest) = handleAll srv (handleAll srv w first).2 rest := by
  induction first generalizing w with
  | nil => rfl
  | cons body first ih =>
    rw [handleAll] at h ⊢
    rw [List.cons_append, handleAll]
    rcases hrun : handle srv w body with ⟨_ | f, v⟩
    · rw [hrun] at h
      exact ih h
    · rw [hrun] at h
      cases h

variable (read : ReadFile)

/-- **What a connection comes to,** from its reads: the bodies that are delivered are handled, and then it
ends as the stream does. -/
theorem serve_reads : ∀ {reads : List Bytes} {c : Connection Unit LuaTree}, c.reader.Settled →
    (∀ chunk ∈ reads, chunk ≠ []) → (∀ body ∈ c.reader.delivered reads, CleanBody body) →
    let bad := (FrameReader.frames (c.reader.buffer ++ reads.flatten) c.reader.expected).2
    (serve (luaServer read .note) c reads).1 = endingFor bad ∧
      (serve (luaServer read .note) c reads).2.world
        = closedFor bad (handleAll (luaServer read .note) c.world (c.reader.delivered reads)).2
  | [], c, hreader, _, _ => by
    rw [List.flatten_nil, List.append_nil, hreader.frames_nil]
    exact ⟨rfl, rfl⟩
  | chunk :: reads, c, hreader, hne, hclean => by
    have hchunk : chunk ≠ [] := hne chunk List.mem_cons_self
    have hfeed := FrameReader.frames_feed c.reader chunk reads.flatten
    rw [List.flatten_cons, serve, Connection.receive, if_neg hchunk]
    rw [FrameReader.delivered] at hclean ⊢
    rcases hread : c.reader.feed chunk with ⟨e | bodies, r⟩
    · rw [hread] at hfeed
      dsimp only at hfeed ⊢
      rw [hfeed]
      cases e <;> exact ⟨rfl, rfl⟩
    · rw [hread] at hfeed hclean
      dsimp only at hfeed hclean ⊢
      have hfirst : (handleAll (luaServer read .note) c.world bodies).1 = none :=
        handleAll_survives read (fun b hb => hclean b (List.mem_append_left _ hb)) c.world
      rcases hrun : handleAll (luaServer read .note) c.world bodies with ⟨f, w⟩
      rw [hrun] at hfirst
      cases hfirst
      have hrest := serve_reads (c := ⟨w, r, c.marks ++ [w.sent.length]⟩) (hreader.feed hread)
        (fun b hb => hne b (List.mem_cons_of_mem chunk hb))
        (fun b hb => hclean b (List.mem_append_right bodies hb))
      rw [handleAll_append (by rw [hrun]), hrun, hfeed]
      exact hrest

/-- What a connection comes to whose stream arrives in chunks.  The session handles what is delivered: the
frames in front of the first bad header, except those that are lost with it.  Then the connection ends as
that header says, or as the stream does. -/
structure Served (stream : Bytes) (chunks : List Bytes) : Prop where
  handled : (FrameReader.frames stream none).1
    = FrameReader.delivered {} (readsOf chunks) ++ FrameReader.lost {} (readsOf chunks)
  kept : (FrameReader.frames stream none).2 = none → FrameReader.lost {} (readsOf chunks) = []
  ending : (serve (luaServer read .note) (.fresh ()) (readsOf chunks)).1
    = endingFor (FrameReader.frames stream none).2
  world : (serve (luaServer read .note) (.fresh ()) (readsOf chunks)).2.world
    = closedFor (FrameReader.frames stream none).2 (handleAll (luaServer read .note)
        (Connection.fresh ()).world (FrameReader.delivered {} (readsOf chunks))).2

theorem served {stream : Bytes} {chunks : List Bytes} (hstream : chunks.flatten = stream)
    (hne : ∀ c ∈ chunks, c ≠ []) (hclean : ∀ body ∈ (FrameReader.frames stream none).1, CleanBody body) :
    Served read stream chunks := by
  subst hstream
  have hflatten : [] ++ (readsOf chunks).flatten = chunks.flatten := flatten_readsOf chunks
  obtain ⟨hhandled, hkept⟩ := FrameReader.frames_eq_delivered_append_lost (readsOf chunks) .fresh
  rw [hflatten] at hhandled hkept
  obtain ⟨hending, hworld⟩ := serve_reads read (c := .fresh ()) .fresh (readsOf_ne_nil hne)
    fun body hbody => hclean body (hhandled ▸ List.mem_append_left _ hbody)
  rw [Connection.fresh, hflatten] at hending hworld
  exact ⟨hhandled, hkept, hending, hworld⟩

/-- **What the cuts of a stream decide.**  A stream without half pairs in its bodies arrives in chunks that
are not empty, cut in two ways.  Each way the connection comes to what is delivered; and if nothing is
lost, as when no header is bad, then the two ways end alike, with all frames in front of the first bad
header handled, the same messages written, and the same session. -/
theorem serve_cut {stream : Bytes} {chunks chunks' : List Bytes} (hstream : chunks.flatten = stream)
    (hstream' : chunks'.flatten = stream) (hne : ∀ c ∈ chunks, c ≠ []) (hne' : ∀ c ∈ chunks', c ≠ [])
    (hclean : ∀ body ∈ (FrameReader.frames stream none).1, CleanBody body) :
    Served read stream chunks ∧ Served read stream chunks' ∧
      (FrameReader.lost {} (readsOf chunks) = [] → FrameReader.lost {} (readsOf chunks') = [] →
        FrameReader.delivered {} (readsOf chunks) = (FrameReader.frames stream none).1 ∧
        FrameReader.delivered {} (readsOf chunks') = (FrameReader.frames stream none).1 ∧
        (serve (luaServer read .note) (.fresh ()) (readsOf chunks)).1
          = (serve (luaServer read .note) (.fresh ()) (readsOf chunks')).1 ∧
        (serve (luaServer read .note) (.fresh ()) (readsOf chunks)).2.world
          = (serve (luaServer read .note) (.fresh ()) (readsOf chunks')).2.world) := by
  have hserved := served read hstream hne hclean
  have hserved' := served read hstream' hne' hclean
  refine ⟨hserved, hserved', fun hlost hlost' => ?_⟩
  have hall := hserved.handled
  have hall' := hserved'.handled
  rw [hlost, List.append_nil] at hall
  rw [hlost', List.append_nil] at hall'
  refine ⟨hall.symm, hall'.symm, ?_, ?_⟩
  · rw [hserved.ending, hserved'.ending]
  · rw [hserved.world, hserved'.world, ← hall, ← hall']

end

/-! ## 5. A frame in front of a bad header -/

namespace FrameReader

/-- A request. -/
def exampleBody : Bytes := requestBody 1 .shutdown []

/-- A header that announces no length. -/
def badHeader : Bytes := bytes "Length: 1\r\n\r\n"

theorem feed_exampleBody (more : Bytes) :
    ({} : FrameReader).feed (encodeFrame exampleBody ++ more) = drain more none [exampleBody] := by
  have hend : splitAtFirst? headerEnd (encodeFrame exampleBody)
      = some (bytes "Content-Length: 56", exampleBody) := by decide +kernel
  have hlength : contentLength (bytes "Content-Length: 56") = .ok exampleBody.length :=
    ok_of_toOption (by decide +kernel)
  rw [feed, List.nil_append, drain_header (splitAtFirst?_append hend more) hlength,
    drain_body (by rw [List.length_append]; omega), List.drop_left, List.take_left]

theorem badHeader_eq : splitAtFirst? headerEnd badHeader = some (bytes "Length: 1", []) := by
  decide +kernel

theorem contentLength_badHeader : contentLength (bytes "Length: 1") = .error .missingLength := by
  have hnone : (headerLines (bytes "Length: 1")).findSome? (headerValue? (bytes "content-length"))
      = none := by decide +kernel
  rw [contentLength, hnone]

/-- The frame is read, and the bad header is met with the next read or with the same one. -/
theorem feed_frame : ({} : FrameReader).feed (encodeFrame exampleBody) = (.ok [exampleBody], {}) := by
  have h := feed_exampleBody []
  rw [List.append_nil] at h
  exact h.trans (drain_open (by decide))

theorem feed_badHeader : ({} : FrameReader).feed badHeader = (.error .missingLength, {}) :=
  drain_bad badHeader_eq contentLength_badHeader

theorem feed_both : ({} : FrameReader).feed (encodeFrame exampleBody ++ badHeader)
    = (.error .missingLength, {}) :=
  (feed_exampleBody badHeader).trans (drain_bad badHeader_eq contentLength_badHeader)

theorem frames_badHeader : frames badHeader none = ([], some .missingLength) :=
  frames_bad badHeader_eq contentLength_badHeader

theorem frames_both : frames (encodeFrame exampleBody ++ badHeader) none
    = ([exampleBody], some .missingLength) := by
  have h := frames_feed {} (encodeFrame exampleBody) badHeader
  rw [feed_frame] at h
  dsimp only [List.nil_append] at h
  rwa [frames_badHeader] at h

theorem clean_exampleBody : CleanBody exampleBody := by decide +kernel

end FrameReader

/-- The request is answered, whether its frame comes at once or cut, if the bad header has a read of its
own. -/
theorem serve_cut_inside :
    let frame := encodeFrame FrameReader.exampleBody
    let bad := FrameReader.badHeader
    let cut := [frame.take 3, frame.drop 3, bad]
    let connection (chunks : List Bytes) :=
      serve (luaServer (fun _ => none) .note) (.fresh ()) (readsOf chunks)
    FrameReader.delivered {} (readsOf cut) = [FrameReader.exampleBody] ∧
      (connection [frame, bad]).2.world = (connection cut).2.world := by
  intro frame bad cut connection
  have hreads : readsOf [frame, bad] = [frame, bad] := readsOf_short (by decide +kernel)
  have hreads' : readsOf cut = cut := readsOf_short (by decide +kernel)
  have hbad : FrameReader.lost {} [bad] = [] := by
    rw [FrameReader.lost, FrameReader.feed_badHeader]
    exact congrArg Prod.fst FrameReader.frames_badHeader
  have hlost : FrameReader.lost {} [frame, bad] = [] := by
    rw [FrameReader.lost, FrameReader.feed_frame]
    exact hbad
  have hlost' : FrameReader.lost {} cut = [] := by
    have hfirst : ({} : FrameReader).feed (frame.take 3) = (.ok [], ⟨frame.take 3, none⟩) :=
      FrameReader.drain_open (by decide +kernel)
    have hsecond : (⟨frame.take 3, none⟩ : FrameReader).feed (frame.drop 3)
        = (.ok [FrameReader.exampleBody], {}) := by
      rw [FrameReader.feed, List.take_append_drop]
      exact FrameReader.feed_frame
    rw [FrameReader.lost, hfirst]
    dsimp only
    rw [FrameReader.lost, hsecond]
    exact hbad
  have hstream : [frame, bad].flatten = frame ++ bad := by simp
  have hstream' : cut.flatten = frame ++ bad := by simp [cut, ← List.append_assoc]
  have hclean : ∀ body ∈ (FrameReader.frames (frame ++ bad) none).1, CleanBody body := by
    rw [FrameReader.frames_both]
    simpa using FrameReader.clean_exampleBody
  obtain ⟨-, -, hcut⟩ := serve_cut (fun _ => none) hstream hstream' (by decide +kernel)
    (by decide +kernel) hclean
  rw [hreads, hreads'] at hcut
  obtain ⟨-, hall, -, hworld⟩ := hcut hlost hlost'
  refine ⟨?_, ?_⟩
  · rw [hreads', hall, FrameReader.frames_both]
  · simpa only [connection, hreads, hreads'] using hworld

/-- With the bad header in the same read the request is lost. -/
theorem serve_lost :
    let frame := encodeFrame FrameReader.exampleBody
    let bad := FrameReader.badHeader
    let sent (chunks : List Bytes) := (serve (luaServer (fun _ => none) .note) (.fresh ())
      (readsOf chunks)).2.world.sent.length
    [frame ++ bad].flatten = [frame, bad].flatten ∧ sent [frame ++ bad] = 0 ∧ sent [frame, bad] = 1 := by
  intro frame bad sent
  have hclean : ∀ body ∈ (FrameReader.frames (frame ++ bad) none).1, CleanBody body := by
    rw [FrameReader.frames_both]
    simpa using FrameReader.clean_exampleBody
  -- what is written is written for what is delivered
  have hsent : ∀ {chunks : List Bytes}, chunks.flatten = frame ++ bad → (∀ c ∈ chunks, c ≠ []) →
      (∀ c ∈ chunks, c.length ≤ readSize) → sent chunks = (handleAll (luaServer (fun _ => none) .note)
        (Connection.fresh ()).world (FrameReader.delivered {} chunks)).2.sent.length := by
    intro chunks hstream hne hshort
    dsimp only [sent]
    rw [(served (fun _ => none) hstream hne hclean).world, closedFor_sent, readsOf_short hshort]
  refine ⟨by simp, ?_, ?_⟩
  · have hnone : FrameReader.delivered {} [frame ++ bad] = [] := by
      rw [FrameReader.delivered, FrameReader.feed_both]
    rw [hsent (by simp) (by decide +kernel) (by decide +kernel), hnone]
    rfl
  · have hone : FrameReader.delivered {} [frame, bad] = [FrameReader.exampleBody] := by
      rw [FrameReader.delivered, FrameReader.feed_frame]
      dsimp only
      rw [FrameReader.delivered, FrameReader.feed_badHeader]
      rfl
    rw [hsent (by simp) (by decide +kernel) (by decide +kernel), hone]
    decide +kernel

end LuaServer
