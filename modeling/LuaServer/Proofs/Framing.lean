/-
# Frames do not depend on chunks

The stream reaches the reader in chunks that may be cut anywhere: inside a header, inside the bytes that
end it, inside a body.  `drain_append` says what more bytes change: the reader goes on from where it
stopped, with the bytes that it had left in front of the new ones, and a bad header stays bad.  So feeding
the pieces of a chunk one after the other gives what feeding the chunk at once gives.

Main result: `feedAll_eq_feed`.
-/
import LuaServer.Wire.Frame

namespace LuaServer.FrameReader

/-! ## 1. Feeding several chunks -/

/-- What a reader answers to each of several chunks, and the reader after them. -/
def feedAll (r : FrameReader) : List Bytes → List (Except FrameError (List Bytes)) × FrameReader
  | [] => ([], r)
  | c :: cs => ((r.feed c).1 :: ((r.feed c).2.feedAll cs).1, ((r.feed c).2.feedAll cs).2)

/-- The readers that are reached without a bad header. -/
inductive Settled : FrameReader → Prop
  | fresh : Settled {}
  | feed : Settled r → r.feed chunk = (.ok bodies, r') → Settled r'

/-! ## 2. The steps of the reader -/

section
variable {buffer header rest : Bytes} {done : List Bytes} {n : Nat}

/-- Without the end of a header nothing is taken. -/
theorem drain_open (h : splitAtFirst? headerEnd buffer = none) :
    drain buffer none done = (.ok done.reverse, ⟨buffer, none⟩) := by
  rw [drain]
  split
  · rfl
  · next hsome => rw [h] at hsome; cases hsome

/-- A header that announces no length is taken and refused. -/
theorem drain_bad {e : FrameError} (h : splitAtFirst? headerEnd buffer = some (header, rest))
    (he : contentLength header = .error e) : drain buffer none done = (.error e, ⟨rest, none⟩) := by
  rw [drain]
  split
  · next hnone => rw [h] at hnone; cases hnone
  · next hsome =>
    rw [h] at hsome
    cases hsome
    simp only [he]

/-- A header is taken, and its body awaited. -/
theorem drain_header (h : splitAtFirst? headerEnd buffer = some (header, rest))
    (hn : contentLength header = .ok n) : drain buffer none done = drain rest (some n) done := by
  rw [drain]
  split
  · next hnone => rw [h] at hnone; cases hnone
  · next hsome =>
    rw [h] at hsome
    cases hsome
    simp only [hn]

/-- A body that is not there as a whole is not taken. -/
theorem drain_short (h : buffer.length < n) :
    drain buffer (some n) done = (.ok done.reverse, ⟨buffer, some n⟩) := by
  rw [drain.eq_def]
  simp only [if_pos h]

/-- A body is taken. -/
theorem drain_body (h : ¬buffer.length < n) :
    drain buffer (some n) done = drain (buffer.drop n) none (buffer.take n :: done) := by
  rw [drain.eq_def]
  simp only [if_neg h]

end

/-! ## 3. More bytes -/

/-- The end of a header is found at the same place when more bytes follow. -/
theorem splitAtFirst?_append {pat buffer header rest : Bytes}
    (h : splitAtFirst? pat buffer = some (header, rest)) (more : Bytes) :
    splitAtFirst? pat (buffer ++ more) = some (header, rest ++ more) := by
  obtain ⟨b, -, hbuffer, hlocal⟩ := splitAtFirstFrom_local h
  rw [hbuffer, List.append_assoc]
  exact hlocal (rest ++ more)

/-- **More bytes are read from where the reader stopped.** -/
theorem drain_append (more buffer : Bytes) (expected : Option Nat) (done : List Bytes) :
    drain (buffer ++ more) expected done
      = match drain buffer expected done with
        | (.ok bodies, r) => drain (r.buffer ++ more) r.expected bodies.reverse
        | (.error e, r) => (.error e, ⟨r.buffer ++ more, r.expected⟩) := by
  induction buffer, expected, done using drain.induct with
  | case1 buffer done h =>
    rw [drain_open h]
    simp only [List.reverse_reverse]
  | case2 buffer done header rest h _ e he =>
    rw [drain_bad h he, drain_bad (splitAtFirst?_append h more) he]
  | case3 buffer done header rest h _ n hn ih =>
    rw [drain_header h hn, drain_header (splitAtFirst?_append h more) hn, ih]
  | case4 buffer done n hshort =>
    rw [drain_short hshort]
    simp only [List.reverse_reverse]
  | case5 buffer done n hlong ih =>
    have hlong' : ¬(buffer ++ more).length < n := by
      rw [List.length_append]
      omega
    rw [drain_body hlong, drain_body hlong', ← ih]
    rw [List.drop_append_of_le_length (by omega), List.take_append_of_le_length (by omega)]

/-- The bodies so far stand in front of those that are found. -/
theorem drain_done (buffer : Bytes) (expected : Option Nat) (done more : List Bytes) :
    drain buffer expected (done ++ more)
      = ((drain buffer expected done).1.map (more.reverse ++ ·), (drain buffer expected done).2) := by
  induction buffer, expected, done using drain.induct with
  | case1 buffer done h =>
    rw [drain_open h, drain_open h, List.reverse_append]
    rfl
  | case2 buffer done header rest h _ e he =>
    rw [drain_bad h he, drain_bad h he]
    rfl
  | case3 buffer done header rest h _ n hn ih => rw [drain_header h hn, drain_header h hn, ih]
  | case4 buffer done n hshort =>
    rw [drain_short hshort, drain_short hshort, List.reverse_append]
    rfl
  | case5 buffer done n hlong ih => rw [drain_body hlong, drain_body hlong, ← ih, List.cons_append]

/-- A reader that stopped without a bad header finds nothing more in what it holds. -/
theorem feed_nil_of_drain {buffer : Bytes} {expected : Option Nat} {done bodies : List Bytes}
    {r : FrameReader} (h : drain buffer expected done = (.ok bodies, r)) :
    r.feed [] = (.ok [], r) := by
  rw [feed, List.append_nil]
  induction buffer, expected, done using drain.induct with
  | case1 buffer done hopen =>
    rw [drain_open hopen] at h
    cases h
    exact drain_open hopen
  | case2 buffer done header rest hend _ e he =>
    rw [drain_bad hend he] at h
    cases h
  | case3 buffer done header rest hend _ n hn ih => exact ih (drain_header hend hn ▸ h)
  | case4 buffer done n hshort =>
    rw [drain_short hshort] at h
    cases h
    exact drain_short hshort
  | case5 buffer done n hlong ih => exact ih (drain_body hlong ▸ h)

theorem Settled.feed_nil {r : FrameReader} (h : r.Settled) : r.feed [] = (.ok [], r) := by
  cases h with
  | fresh => exact drain_open (by decide)
  | feed _ hfeed => exact feed_nil_of_drain hfeed

/-- A chunk in two pieces: the bodies of the second follow those of the first, and a bad header in the
first is one in the whole. -/
theorem feed_append (r : FrameReader) (c d : Bytes) :
    r.feed (c ++ d) = match r.feed c with
      | (.ok bodies, r') => ((r'.feed d).1.map (bodies ++ ·), (r'.feed d).2)
      | (.error e, r') => (.error e, ⟨r'.buffer ++ d, r'.expected⟩) := by
  rw [feed, ← List.append_assoc, drain_append, feed]
  rcases drain (r.buffer ++ c) r.expected [] with ⟨e | bodies, r'⟩
  · rfl
  · have hdone := drain_done (r'.buffer ++ d) r'.expected [] bodies.reverse
    rwa [List.nil_append, List.reverse_reverse] at hdone

/-! ## 4. Cutting a chunk -/

/-- A chunk that is read without a bad header, cut into one piece or more. -/
theorem feedAll_pieces {r r' : FrameReader} {bodies : List Bytes} (c : Bytes) (cs : List Bytes)
    (h : r.feed (c ++ cs.flatten) = (.ok bodies, r')) :
    ∃ parts : List (List Bytes), r.feedAll (c :: cs) = (parts.map .ok, r') ∧
      parts.flatten = bodies := by
  induction cs generalizing r bodies c with
  | nil =>
    rw [List.flatten_nil, List.append_nil] at h
    exact ⟨[bodies], by simp [feedAll, h], by simp⟩
  | cons d cs ih =>
    rw [feed_append] at h
    split at h
    · next first r₁ hfirst =>
      obtain ⟨hbodies, hr'⟩ := Prod.mk.inj h
      obtain ⟨more, hmore, rfl⟩ : ∃ more, (r₁.feed (d :: cs).flatten).1 = .ok more ∧
          first ++ more = bodies := by
        cases hd : (r₁.feed (d :: cs).flatten).1 with
        | error e => rw [hd] at hbodies; cases hbodies
        | ok more => rw [hd] at hbodies; exact ⟨more, rfl, Except.ok.inj hbodies⟩
      obtain ⟨parts, hparts, rfl⟩ := ih d (Prod.ext hmore hr')
      refine ⟨first :: parts, ?_, rfl⟩
      rw [feedAll, hfirst, hparts, List.map_cons]
    · cases h

/-- **Framing does not depend on chunking.**  If a chunk is read without a bad header, then so are its
pieces, fed one after the other: their bodies are those of the whole, and the reader ends in the same
state.  Where the chunk is empty and cut into no pieces at all, nothing is fed; this is the same as
feeding the empty chunk for a reader that never met a bad header. -/
theorem feedAll_eq_feed {r r' : FrameReader} {bodies : List Bytes} {chunks : List Bytes}
    (hcut : chunks ≠ [] ∨ r.Settled) (h : r.feed chunks.flatten = (.ok bodies, r')) :
    ∃ parts : List (List Bytes), r.feedAll chunks = (parts.map .ok, r') ∧
      parts.flatten = bodies := by
  cases chunks with
  | nil =>
    have hr : r.Settled := by simpa using hcut
    rw [List.flatten_nil, hr.feed_nil] at h
    cases h
    exact ⟨[], rfl, rfl⟩
  | cons c cs => exact feedAll_pieces c cs h

/-- Cuts inside the end of a header and before its length, and a body that holds the end of a header. -/
theorem feedAll_eq_feed_cut :
    ∃ parts : List (List Bytes),
      ({} : FrameReader).feedAll [bytes "Content-Length: ", bytes "", bytes "9\r\n\r",
        bytes "\n1:\r\n\r\n1:", bytes "\nContent"] = (parts.map .ok, ⟨bytes "Content", none⟩) ∧
      parts.flatten = [bytes "1:\r\n\r\n1:\n"] := by
  have hend : splitAtFirst? headerEnd (bytes "Content-Length: 9\r\n\r\n1:\r\n\r\n1:\nContent")
      = some (bytes "Content-Length: 9", bytes "1:\r\n\r\n1:\nContent") := by decide +kernel
  have hlength : contentLength (bytes "Content-Length: 9") = .ok 9 := by
    have hread : (contentLength (bytes "Content-Length: 9")).toOption = some 9 := by decide +kernel
    cases h : contentLength (bytes "Content-Length: 9") with
    | error e =>
      rw [h] at hread
      cases hread
    | ok n =>
      rw [h] at hread
      exact congrArg _ (Option.some.inj hread)
  refine feedAll_eq_feed (.inl (List.cons_ne_nil _ _)) ?_
  calc ({} : FrameReader).feed _
      = drain (bytes "Content-Length: 9\r\n\r\n1:\r\n\r\n1:\nContent") none [] := by rfl
    _ = drain (bytes "1:\r\n\r\n1:\nContent") (some 9) [] := drain_header hend hlength
    _ = drain (bytes "Content") none [bytes "1:\r\n\r\n1:\n"] := drain_body (by decide)
    _ = (.ok [bytes "1:\r\n\r\n1:\n"], ⟨bytes "Content", none⟩) := drain_open (by decide +kernel)

end LuaServer.FrameReader
