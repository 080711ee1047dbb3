/-
# How a text that is refused is reported

A text is read or it is refused, and it is refused for a fault of its own at one of its places.  The fault
travels as a message that begins with the place, and the session takes it apart again: what is published
is one diagnostic, with the place counted from 0, one code point long, and the message without the place,
whatever it quotes.

Two things come in between.  The diagnostic ends one code point after the place, and at the end of a text
of one line with 2 ^ 31 - 1 code points no coordinate is left for that.  And a message that quotes half of
a surrogate pair cannot be written: the analysis fails in `publish`, and nobody is told.

Main result: `parse_reported`.
-/
import LuaServer.Proofs.Depth
import LuaServer.Proofs.RenameReply
import LuaServer.Proofs.Survival
import LuaServer.Proofs.UpToDate

namespace LuaServer

/-- A fault that can be told about a document. -/
structure Tellable (e : Lua.SyntaxError) (uri : Text) : Prop where
  column : e.pos.column ≤ maxCoordinate
  message : Clean e.fault.message
  uri : Clean uri

/-- What an analysis of an open document does about a text that is refused: it drops the tree, and keeps
and publishes one diagnostic.  If that cannot be told, the analysis crashes and publishes nothing. -/
structure Reported (srv : Server Unit LuaTree) (w : LuaWorld) (uri : Text) (doc : Document)
    (e : Lua.SyntaxError) : Prop where
  told : Tellable e uri → analyze srv uri w = (.ok none,
    { w with
      session := { w.session with
        trees := Table.erase uri w.session.trees
        diagnostics := Table.insert uri [.ofFault e] w.session.diagnostics }
      sent := w.sent ++ [publishJson uri [.ofFault e] doc.version] })
  untold : ¬Tellable e uri → (∃ c, (analyze srv uri w).1 = .error (.crashed c)) ∧
    (analyze srv uri w).2.sent = w.sent

/-! ## 1. The diagnostic -/

/-- A stretch that ends out of range is not made. -/
theorem span_make_beyond {line character length : Int} (h : (maxCoordinate : Int) < character + length) :
    ∃ c, Span.make line character length = .error c := by
  rcases span_make_cases line character length with ⟨hin, -⟩ | ⟨-, which, v, hspan⟩
  · exact absurd hin.stop.2 (by omega)
  · exact ⟨_, hspan⟩

/-- The message of a refusal is taken apart again.  Only the end of the diagnostic may be out of range. -/
theorem ofRefusal_cases {e : Lua.SyntaxError} (hp : 1 ≤ e.pos.line ∧ 1 ≤ e.pos.column)
    (hline : e.pos.line ≤ maxCoordinate + 1) (hcolumn : e.pos.column ≤ maxCoordinate + 1) :
    e.pos.column ≤ maxCoordinate ∧ Diagnostic.ofRefusal e.message = .ok (some (.ofFault e)) ∨
      maxCoordinate < e.pos.column ∧ ∃ c, Diagnostic.ofRefusal e.message = .error c := by
  rcases Nat.lt_or_ge maxCoordinate e.pos.column with hlarge | hsmall
  · have hspan : ∃ c, spanAt e.pos.line e.pos.column 1 = .error c := span_make_beyond (by omega)
    obtain ⟨c, hspan⟩ := hspan
    refine .inr ⟨hlarge, c, ?_⟩
    simp only [Diagnostic.ofRefusal, splitPlace?_message, placeNumber_decimal hline,
      placeNumber_decimal hcolumn, hspan]
  · exact .inl ⟨hsmall, ofRefusal_message hp hline hsmall⟩

/-- The diagnostic of a fault, field by field. -/
theorem ofFault_eq {e : Lua.SyntaxError} (hcolumn : 1 ≤ e.pos.column) : Diagnostic.ofFault e =
    { span := ⟨⟨e.pos.line - 1, e.pos.column - 1⟩, ⟨e.pos.line - 1, e.pos.column⟩⟩
      message := e.fault.message, severity := .error, source := text "lunals.syntax" } := by
  have hend : e.pos.column - 1 + 1 = e.pos.column := by omega
  rw [Diagnostic.ofFault, spanFrom, hend]
  rfl

/-- The publication of a fault can be written if the fault can be shown. -/
theorem clean_publishJson_ofFault {e : Lua.SyntaxError} {uri : Text} (version : Option Int) :
    (publishJson uri [.ofFault e] version).Clean ↔ Clean e.fault.message ∧ Clean uri := by
  have hsource : Clean (Diagnostic.ofFault e).source := clean_diagnosticSource "syntax"
  rw [clean_publishJson, List.forall_mem_singleton, and_iff_left hsource, and_comm]
  rfl

/-! ## 2. The analysis -/

section
variable (read : ReadFile) (onExit : ExitPolicy) {uri : Text} {doc : Document} {w : LuaWorld}

/-- A publication that cannot be written crashes, after the diagnostics have been kept. -/
theorem publish_fails {ds : List Diagnostic} {u : Utf8.Unencodable}
    (hdoc : Table.get? uri w.session.documents = some doc)
    (hencode : encode (publishJson uri ds doc.version) = .error u) :
    publish uri ds w = (.error (.crashed (.unencodable u)),
      { w with
        session := { w.session with diagnostics := Table.insert uri ds w.session.diagnostics } }) := by
  simp only [publish, bind_run, modifySession_run, andThen_ok, session_run, hdoc, Option.bind_some]
  exact send_run_error _ hencode

/-- An analysis of a text that is refused is the report of the refusal, and gives no tree. -/
theorem analyze_refused {e : Lua.SyntaxError} (hdoc : Table.get? uri w.session.documents = some doc)
    (hparse : Lua.parse doc.text uri = .error e) :
    analyze (luaServer read onExit) uri w
      = andThen (fun _ => pure none) (reportRefusal uri e.message w) := by
  rw [analyze, bind_run, session_run, andThen_ok, hdoc]
  simp only [luaServer, luaFrontEnd, hparse, bind_run]

/-- **A refusal is reported once,** or it cannot be told and the analysis crashes. -/
theorem analyze_reports {e : Lua.SyntaxError} (hp : 1 ≤ e.pos.line ∧ 1 ≤ e.pos.column)
    (hline : e.pos.line ≤ maxCoordinate + 1) (hcolumn : e.pos.column ≤ maxCoordinate + 1)
    (hdoc : Table.get? uri w.session.documents = some doc)
    (hparse : Lua.parse doc.text uri = .error e) :
    Reported (luaServer read onExit) w uri doc e := by
  have hdropped : Table.get? uri { w with
      session := { w.session with trees := Table.erase uri w.session.trees } }.session.documents
      = some doc := hdoc
  rcases ofRefusal_cases hp hline hcolumn with ⟨hsmall, hrefusal⟩ | ⟨hlarge, c, hrefusal⟩
  · have hreport : reportRefusal uri e.message w = publish uri [.ofFault e]
        { w with session := { w.session with trees := Table.erase uri w.session.trees } } := by
      simp only [reportRefusal, dropTree, bind_run, modifySession_run, andThen_ok, hrefusal,
        orCrash_ok_run]
    constructor
    case told =>
      intro htell
      obtain ⟨body, hencode⟩ :=
        encode_of_clean ((clean_publishJson_ofFault doc.version).mpr ⟨htell.message, htell.uri⟩)
      rw [analyze_refused read onExit hdoc hparse, hreport, publish_run hdropped hencode, andThen_ok]
      rfl
    case untold =>
      intro htell
      have hsurrogate : ¬(publishJson uri [.ofFault e] doc.version).Clean := fun hclean =>
        have hshown := (clean_publishJson_ofFault doc.version).mp hclean
        htell ⟨hsmall, hshown.1, hshown.2⟩
      obtain ⟨u, hencode⟩ := encode_fails_iff.mpr hsurrogate
      rw [analyze_refused read onExit hdoc hparse, hreport, publish_fails hdropped hencode, andThen_error]
      exact ⟨⟨_, rfl⟩, rfl⟩
  · constructor
    case told => exact fun htell => absurd htell.column (Nat.not_le_of_lt hlarge)
    case untold =>
      intro _
      rw [analyze_refused read onExit hdoc hparse, reportRefusal]
      simp only [dropTree, bind_run, modifySession_run, andThen_ok, hrefusal, orCrash_error_run,
        andThen_error]
      exact ⟨⟨c, rfl⟩, trivial⟩

end

/-! ## 3. Whole texts -/

/-- Where and why a text is refused, if it is: what of a refusal can be compared. -/
def Lua.refusal? (source uri : Text) : Option (Pos × Text) :=
  match Lua.parse source uri with
  | .ok _ => none
  | .error e => some (e.pos, e.fault.message)

theorem Lua.parse_of_refusal {source uri m : Text} {p : Pos}
    (h : Lua.refusal? source uri = some (p, m)) :
    ∃ e, Lua.parse source uri = .error e ∧ e.pos = p ∧ e.fault.message = m := by
  rw [Lua.refusal?] at h
  cases hparse : Lua.parse source uri with
  | ok c =>
    rw [hparse] at h
    cases h
  | error e =>
    rw [hparse] at h
    obtain ⟨rfl, rfl⟩ := Prod.mk.inj (Option.some.inj h)
    exact ⟨e, rfl, rfl, rfl⟩

/-- **A text is read, or it is refused and that is reported once.**  The fault is one of the text's own,
at the place of one of its offsets or at its end.  Its diagnostic stands there, counted from 0, is one
code point long and an error, and its message is that of the fault.  An open document with the text has
it published alone, if it can be told, as it can if the text holds no half of a surrogate pair and its
places can be sent. -/
theorem parse_reported (read : ReadFile) (onExit : ExitPolicy) {source : Text}
    (hlength : source.length < 2147483648) (uri : Text) :
    (∃ c, Lua.parse source uri = .ok c) ∨
    ∃ e, Lua.parse source uri = .error e ∧ e.fault ≠ .tooDeep ∧
      (∃ k ≤ source.length, e.pos = placeAt source k) ∧
      Diagnostic.ofFault e =
        { span := ⟨⟨e.pos.line - 1, e.pos.column - 1⟩, ⟨e.pos.line - 1, e.pos.column⟩⟩
          message := e.fault.message, severity := .error, source := text "lunals.syntax" } ∧
      (Clean source → Sendable source → Clean uri → Tellable e uri) ∧
      ∀ (w : LuaWorld) (doc : Document), Table.get? uri w.session.documents = some doc →
        doc.text = source → Reported (luaServer read onExit) w uri doc e := by
  cases hparse : Lua.parse source uri with
  | ok c => exact .inl ⟨c, rfl⟩
  | error e =>
    obtain ⟨⟨k, hpos⟩, hmessage⟩ := Lua.parse_error hparse
    have hplace : e.pos = placeAt source (min k source.length) := by
      rw [hpos, placeAt, placeAt, ← List.take_eq_take_min]
    have hone := one_le_placeAt source k
    rw [← hpos] at hone
    refine .inr ⟨e, rfl, Lua.parse_not_tooDeep hparse, ⟨_, Nat.min_le_right .., hplace⟩,
      ofFault_eq hone.2, ?_, ?_⟩
    · intro hclean hsend huri
      exact ⟨hpos ▸ (hsend.placeAt_le k).2, hmessage hclean, huri⟩
    · rintro w doc hdoc rfl
      have hle := placeAt_le doc.text k
      have hmax : maxCoordinate = 2147483647 := rfl
      rw [← hpos] at hle
      exact analyze_reports read onExit hone (by omega) (by omega) hdoc hparse

/-- A message with a line break, colons and digits of its own is published as it is. -/
theorem parse_reported_quoted :
    let srv := luaServer (fun _ => none) .note
    let uri := text "a.lua"
    let source := text "[[1:2:\n]]"
    let w := sessionWith uri source
    source.length < 2147483648 ∧ ∃ e, Lua.parse source uri = .error e ∧ e.pos = ⟨1, 1⟩ ∧
      e.fault.message = text "unexpected symbol near '[[1:2:\n]]'" ∧
      (analyze srv uri w).2.sent = [publishJson uri [.ofFault e] (some 1)] := by
  intro srv uri source w
  have hlength : source.length < 2147483648 := by decide
  have hrefusal : Lua.refusal? source uri
      = some (⟨1, 1⟩, text "unexpected symbol near '[[1:2:\n]]'") := by decide +kernel
  obtain ⟨e, hparse, hpos, hmessage⟩ := Lua.parse_of_refusal hrefusal
  obtain ⟨c, hok⟩ | ⟨e', herror, -, -, -, htellable, hreported⟩ :=
    parse_reported (fun _ => none) .note hlength uri
  · cases hok.symm.trans hparse
  · obtain rfl := Except.error.inj (herror.symm.trans hparse)
    have htold := htellable (by decide +kernel) (by decide +kernel) (by decide)
    refine ⟨hlength, e', herror, hpos, hmessage, ?_⟩
    rw [(hreported w ⟨source, some 1, .null⟩ (by rfl) rfl).told htold]
    rfl

/-- A text that is half of a surrogate pair is refused, and nobody is told. -/
theorem parse_unreported :
    let uri := text "a.lua"
    let w := sessionWith uri [0xD800]
    (∃ e, Lua.parse [0xD800] uri = .error e ∧ e.pos = ⟨1, 1⟩ ∧
      e.fault.message = text "unexpected symbol near '" ++ [0xD800] ++ text "'") ∧
      (analyze (luaServer (fun _ => none) .note) uri w).2.sent = [] := by
  intro uri w
  have hrefusal : Lua.refusal? [0xD800] uri
      = some (⟨1, 1⟩, text "unexpected symbol near '" ++ [0xD800] ++ text "'") := by decide +kernel
  have hsent : (analyze (luaServer (fun _ => none) .note) uri w).2.sent.isEmpty = true := by
    decide +kernel
  exact ⟨Lua.parse_of_refusal hrefusal, List.isEmpty_iff.mp hsent⟩

end LuaServer
