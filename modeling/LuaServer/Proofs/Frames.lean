/-
# Written frames, and what follows a bad header

What is written as frames is read as frames: a reader that awaits a header takes the bodies of whole
frames, keeps what there is of a frame that is not yet whole, and has its body as soon as the rest has
come.  No body can mislead it, because it looks for the end of a header only where a header stands.

A header that announces no length is refused, and the reader goes on behind it as if nothing had been
before.  `Reaches` says without the reader where that is: frame by frame, past headers that announce the
length of their bodies.

Main results: `feed_frames`, `feed_fails_iff`.
-/
import LuaServer.Proofs.Headers

namespace LuaServer.FrameReader

/-! ## 1. Written frames -/

/-- A frame in front of more bytes is taken. -/
theorem drain_frame {body : Bytes} (h : body.length < 10 ^ maxDigits) (more : Bytes)
    (done : List Bytes) :
    drain (encodeFrame body ++ more) none done = drain more none (body :: done) := by
  have hheader : splitAtFirst? headerEnd (encodeFrame body ++ more)
      = some (lengthHeader body.length, body ++ more) := by
    rw [splitAtFirst?_iff, encodeFrame_eq, List.append_assoc]
    exact ⟨rfl, delimits_lengthHeader _⟩
  have hlong : ¬(body ++ more).length < body.length := by
    rw [List.length_append]
    omega
  rw [drain_header hheader (contentLength_eq_ok.mpr (announces_lengthHeader h)), drain_body hlong,
    List.drop_left' rfl, List.take_left' rfl]

/-- Frames in front of more bytes are taken. -/
theorem drain_frames {bodies : List Bytes} (h : ∀ b ∈ bodies, b.length < 10 ^ maxDigits)
    (more : Bytes) (done : List Bytes) :
    drain (bodies.flatMap encodeFrame ++ more) none done = drain more none (bodies.reverse ++ done) := by
  induction bodies generalizing done with
  | nil => rfl
  | cons body bodies ih =>
    obtain ⟨hbody, hbodies⟩ := List.forall_mem_cons.mp h
    rw [List.flatMap_cons, List.append_assoc, drain_frame hbody, ih hbodies, List.reverse_cons,
      List.append_assoc]
    rfl

/-- Of a frame that is not whole nothing is taken as a body. -/
theorem drain_part {body part rest : Bytes} (h : body.length < 10 ^ maxDigits)
    (hframe : encodeFrame body = part ++ rest) (hrest : rest ≠ []) :
    ∃ r, ∀ done, drain part none done = (.ok done.reverse, r) := by
  cases hsplit : splitAtFirst? headerEnd part with
  | none => exact ⟨_, fun done => drain_open hsplit⟩
  | some parts =>
    obtain ⟨header, front⟩ := parts
    -- the end of the header lies within the part
    have hwhole : splitAtFirst? headerEnd (encodeFrame body) = some (lengthHeader body.length, body) :=
      splitAtFirst?_iff.mpr ⟨encodeFrame_eq body, delimits_lengthHeader _⟩
    rw [hframe, splitAtFirst?_append hsplit rest] at hwhole
    obtain ⟨rfl, hfront⟩ := Prod.mk.inj (Option.some.inj hwhole)
    have hshort : front.length < body.length := by
      have hpos := List.length_pos_iff.mpr hrest
      rw [← hfront, List.length_append]
      omega
    refine ⟨⟨front, some body.length⟩, fun done => ?_⟩
    rw [drain_header hsplit (contentLength_eq_ok.mpr (announces_lengthHeader h)), drain_short hshort]

/-- A reader that holds a part of a frame reads on from the beginning of it. -/
theorem feed_after {part : Bytes} {r : FrameReader}
    (h : ∀ done, drain part none done = (.ok done.reverse, r)) (more : Bytes) :
    r.feed more = drain (part ++ more) none [] := by
  rw [drain_append, h]
  rfl

/-- **Frames are read back.**  From the frames of some bodies, a reader that awaits a header takes just
these bodies, and then it is as it was.  If a part of one further frame follows, it takes no more.  Then a
piece of the rest that is not all of it completes nothing, and with the last byte of the rest, whether it
comes in pieces or at once, the further body is there and the reader is as it was; what comes behind that
frame is read as by a fresh reader. -/
theorem feed_frames {bodies : List Bytes} {last part rest : Bytes}
    (hbodies : ∀ b ∈ bodies, b.length < 10 ^ maxDigits) (hlast : last.length < 10 ^ maxDigits)
    (hframe : encodeFrame last = part ++ rest) (hrest : rest ≠ []) :
    ({} : FrameReader).feed (bodies.flatMap encodeFrame) = (.ok bodies, {}) ∧
    ∃ r, ({} : FrameReader).feed (bodies.flatMap encodeFrame ++ part) = (.ok bodies, r) ∧
      r.feed rest = (.ok [last], {}) ∧
      (∀ front back, rest = front ++ back → back ≠ [] →
        ∃ r', r.feed front = (.ok [], r') ∧ r'.feed back = (.ok [last], {})) ∧
      ∀ more, r.feed (rest ++ more)
        = ((({} : FrameReader).feed more).1.map (last :: ·), (({} : FrameReader).feed more).2) := by
  have hfeed : ∀ more r, (∀ done, drain more none done = (.ok done.reverse, r)) →
      ({} : FrameReader).feed (bodies.flatMap encodeFrame ++ more) = (.ok bodies, r) := by
    intro more r hmore
    rw [feed, List.nil_append, drain_frames hbodies, List.append_nil, hmore, List.reverse_reverse]
  have hnone : ∀ done, drain [] none done = (.ok done.reverse, {}) := fun done => drain_open (by decide)
  have hwhole : drain (encodeFrame last) none [] = (.ok [last], {}) := by
    rw [← List.append_nil (encodeFrame last), drain_frame hlast, hnone]
    rfl
  obtain ⟨r, hr⟩ := drain_part hlast hframe hrest
  refine ⟨?_, r, hfeed part r hr, ?_, ?_, ?_⟩
  · have hall := hfeed [] {} hnone
    rwa [List.append_nil] at hall
  · rw [feed_after hr, ← hframe, hwhole]
  · intro front back hcut hback
    have hpiece : encodeFrame last = (part ++ front) ++ back := by rw [hframe, hcut, List.append_assoc]
    obtain ⟨r', hr'⟩ := drain_part hlast hpiece hback
    refine ⟨r', ?_, ?_⟩
    · rw [feed_after hr, hr']
      rfl
    · rw [feed_after hr', ← hpiece, hwhole]
  · intro more
    rw [feed_after hr, ← List.append_assoc, ← hframe, drain_frame hlast]
    exact drain_done more none [] [last]

/-- A body that is the end of a header, a body that is a header, and a cut inside the end of a header. -/
theorem feed_frames_cut :
    ({} : FrameReader).feed ([bytes "\r\n\r\n"].flatMap encodeFrame) = (.ok [bytes "\r\n\r\n"], {}) ∧
    ∃ r, ({} : FrameReader).feed
        ([bytes "\r\n\r\n"].flatMap encodeFrame ++ bytes "Content-Length: 17\r\n")
          = (.ok [bytes "\r\n\r\n"], r) ∧
      ∃ r', r.feed (bytes "\r\nContent-Length: ") = (.ok [], r') ∧
        r'.feed (bytes "3") = (.ok [bytes "Content-Length: 3"], {}) := by
  have hlimit : 17 < 10 ^ maxDigits := by decide +kernel
  have hbodies : ∀ b ∈ [bytes "\r\n\r\n"], b.length < 10 ^ maxDigits := by
    intro b hb
    rw [List.mem_singleton.mp hb]
    exact Nat.lt_trans (by decide) hlimit
  have hlast : (bytes "Content-Length: 3").length < 10 ^ maxDigits := hlimit
  have hframe : encodeFrame (bytes "Content-Length: 3")
      = bytes "Content-Length: 17\r\n" ++ bytes "\r\nContent-Length: 3" := by decide
  obtain ⟨hall, r, hpart, -, hpieces, -⟩ := feed_frames hbodies hlast hframe (by decide)
  exact ⟨hall, r, hpart, hpieces _ _ (by decide) (by decide)⟩

/-! ## 2. Bad headers -/

/-- Reading `stream` frame by frame, where perhaps a body is awaited, one comes to a header that is there
up to its end and to what stands behind it.  All headers before it announce the length of a body that is
there as a whole. -/
inductive Reaches : Option Nat → Bytes → (header behind : Bytes) → Prop
  | header : Delimits headerEnd header → Reaches none (header ++ headerEnd ++ behind) header behind
  | next : Delimits headerEnd first → Announces first n → Reaches (some n) stream header behind →
      Reaches none (first ++ headerEnd ++ stream) header behind
  | body : Reaches none stream header behind → Reaches (some body.length) (body ++ stream) header behind

/-- **The reader stops at the first header that is refused.** -/
theorem drain_eq_error {buffer : Bytes} {expected : Option Nat} {done : List Bytes} {e : FrameError}
    {r : FrameReader} : drain buffer expected done = (.error e, r) ↔
      ∃ header behind, Reaches expected buffer header behind ∧ Refused header e ∧ r = ⟨behind, none⟩ := by
  constructor
  · intro h
    induction buffer, expected, done using drain.induct with
    | case1 buffer done hopen =>
      rw [drain_open hopen] at h
      cases h
    | case2 buffer done header behind hend _ e' he =>
      rw [drain_bad hend he] at h
      cases h
      obtain ⟨rfl, hends⟩ := splitAtFirst?_iff.mp hend
      exact ⟨header, behind, .header hends, contentLength_eq_error.mp he, rfl⟩
    | case3 buffer done first stream hend _ n hn ih =>
      rw [drain_header hend hn] at h
      obtain ⟨header, behind, hreaches, hrefused, rfl⟩ := ih h
      obtain ⟨rfl, hends⟩ := splitAtFirst?_iff.mp hend
      exact ⟨header, behind, .next hends (contentLength_eq_ok.mp hn) hreaches, hrefused, rfl⟩
    | case4 buffer done n hshort =>
      rw [drain_short hshort] at h
      cases h
    | case5 buffer done n hlong ih =>
      rw [drain_body hlong] at h
      obtain ⟨header, behind, hreaches, hrefused, rfl⟩ := ih h
      have hsize : (buffer.take n).length = n := List.length_take_of_le (Nat.not_lt.mp hlong)
      have hbody : Reaches (some (buffer.take n).length) (buffer.take n ++ buffer.drop n) header behind :=
        .body hreaches
      rw [hsize, List.take_append_drop] at hbody
      exact ⟨header, behind, hbody, hrefused, rfl⟩
  · rintro ⟨header, behind, hreaches, hrefused, rfl⟩
    induction hreaches generalizing done with
    | header hends =>
      exact drain_bad (splitAtFirst?_iff.mpr ⟨rfl, hends⟩) (contentLength_eq_error.mpr hrefused)
    | next hends hannounces _ ih =>
      rw [drain_header (splitAtFirst?_iff.mpr ⟨rfl, hends⟩) (contentLength_eq_ok.mpr hannounces)]
      exact ih hrefused
    | body _ ih =>
      rw [drain_body (by rw [List.length_append]; omega), List.drop_left' rfl]
      exact ih hrefused

/-- **Recovery after a bad header.**  Feeding a reader fails exactly if, frame by frame through what it
holds and what it is fed, a header is reached that announces no length, and it fails for what is wrong with
the first such header: it has no line that gives a length, or what that line gives is no run of digits
(also if it is nothing at all), or it has too many digits.  Then the reader awaits a header and holds just
what stands behind the bad one, so whatever it is fed later is read as by a fresh reader that is fed this
together with it. -/
theorem feed_fails_iff {r r' : FrameReader} {data : Bytes} {e : FrameError} :
    r.feed data = (.error e, r') ↔ ∃ header behind,
      Reaches r.expected (r.buffer ++ data) header behind ∧ Refused header e ∧ r' = ⟨behind, none⟩ ∧
      ∀ chunk chunks, r'.feedAll (chunk :: chunks)
        = ({} : FrameReader).feedAll ((behind ++ chunk) :: chunks) := by
  rw [feed, drain_eq_error]
  constructor
  · rintro ⟨header, behind, hreaches, hrefused, rfl⟩
    exact ⟨header, behind, hreaches, hrefused, rfl, fun _ _ => rfl⟩
  · rintro ⟨header, behind, hreaches, hrefused, hr', -⟩
    exact ⟨header, behind, hreaches, hrefused, hr'⟩

end LuaServer.FrameReader
