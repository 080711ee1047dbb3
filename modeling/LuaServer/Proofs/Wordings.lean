/-
# Wordings

What is told about a failure is made of fixed words, numbers and parts of what the client sent.  So it is
free of surrogates if these parts are.
-/
import LuaServer.Proofs.Encoding
import LuaServer.Proofs.Stretches
import LuaServer.Session.Methods

namespace LuaServer

/-! ## 1. Crashes and causes -/

@[simp] theorem clean_tooManyDigits (n : Nat) : Clean (tooManyDigitsMessage n) := by
  simp [tooManyDigitsMessage]

theorem clean_unencodable (u : Utf8.Unencodable) : Clean u.message := by
  unfold Utf8.Unencodable.message
  split <;> simp

theorem clean_undecodable (f : Utf8.Fault) : Clean f.message := by
  have hreason : Clean f.reason.message := by cases f.reason <;> exact clean_text _
  unfold Utf8.Fault.message
  split <;> simp [hreason]

/-- A crash whose wording has nothing of a client in it. -/
def Crash.Inner : Crash → Prop
  | .invalidUri _ | .component _ => False
  | _ => True

theorem Crash.Inner.clean {c : Crash} (h : c.Inner) : Clean c.message := by
  cases c with
  | unencodable u => exact clean_unencodable u
  | undecodable f => exact clean_undecodable f
  | outOfRange c value => simp [Crash.message]
  | tooManyDigits n => exact clean_tooManyDigits n
  | embeddedNull => exact clean_text _
  | lostSymbol => exact clean_text _
  | invalidUri f => cases h
  | component message => cases h

/-- What is told about a body that is no message can be told. -/
theorem clean_cause (c : DecodeCause) : Clean c.message := by
  cases c with
  | notUtf8 reason => cases reason <;> simp [DecodeCause.message, Utf8.Reason.message]
  | notJson source fault => cases fault <;> simp [DecodeCause.message, JsonFault.message]
  | notObject kind => simp [DecodeCause.message]
  | invalid problems =>
    refine clean_append.mpr ⟨clean_text _, clean_join (clean_text _) fun t ht => ?_⟩
    obtain ⟨p, -, rfl⟩ := List.mem_map.mp ht
    exact clean_text _

/-! ## 2. Crashes that can be told -/

section
variable {c : Crash}

theorem Crash.IsMisplaced.inner (h : c.IsMisplaced) : c.Inner := by
  cases c with
  | outOfRange | tooManyDigits => trivial
  | _ => cases h

theorem projectTables_inner {content : Bytes} (h : projectTables content = .error c) : c.Inner := by
  unfold projectTables at h
  repeat' split at h
  all_goals cases h <;> trivial

theorem projectLayer_inner {read : ReadFile} {root : Option Text}
    (h : projectLayer read root = .error c) : c.Inner := by
  unfold projectLayer at h
  split at h
  · cases h
  · next hload =>
    cases h
    unfold loadProject at hload
    split at hload
    · next hpath =>
      cases hload
      unfold checkPath at hpath
      repeat' split at hpath
      all_goals cases hpath <;> trivial
    · split at hload
      · cases hload
      · exact projectTables_inner hload

end

/-! ## 3. Faults of URIs -/

theorem splitAtFirst?_clean {pattern t before after : Text} (ht : Clean t)
    (h : splitAtFirst? pattern t = some (before, after)) : Clean before ∧ Clean after := by
  rw [splitAtFirst?_eq_append h, clean_append, clean_append] at ht
  exact ⟨ht.1.1, ht.2⟩

theorem cutAt_clean {t : Text} (ht : Clean t) (c : Code) : Clean (cutAt c t).1 := by
  unfold cutAt
  cases h : splitAtFirst? [c] t with
  | none => exact ht
  | some parts => exact (splitAtFirst?_clean ht h).1

theorem splitOn_clean {sep : Code} : ∀ {t : Text}, Clean t → ∀ part ∈ splitOn sep t, Clean part
  | [], _, part, hpart => by
    obtain rfl := List.mem_singleton.mp hpart
    exact clean_nil
  | c :: t, ht, part, hpart => by
    obtain ⟨hc, ht⟩ := clean_cons.mp ht
    have ih : ∀ part ∈ splitOn sep t, Clean part := splitOn_clean ht
    rw [splitOn] at hpart
    split at hpart
    · rcases List.mem_cons.mp hpart with rfl | hpart
      · exact clean_nil
      · exact ih part hpart
    · split at hpart
      · obtain rfl := List.mem_singleton.mp hpart
        exact clean_cons.mpr ⟨hc, clean_nil⟩
      · next first rest heq =>
        rw [heq] at ih
        rcases List.mem_cons.mp hpart with rfl | hpart
        · exact clean_cons.mpr ⟨hc, ih first List.mem_cons_self⟩
        · exact ih part (List.mem_cons_of_mem _ hpart)

theorem checkBracketed_clean {host : Text} (h : Clean host) {f : UriFault}
    (hf : checkBracketed host = .error f) : Clean f.message := by
  unfold checkBracketed at hf
  repeat' split at hf
  all_goals cases hf
  · exact clean_text _
  · exact clean_text _
  · exact clean_append.mpr ⟨clean_literal h, clean_text _⟩

theorem checkHostAndPort_clean {t : Text} (ht : Clean t) {f : UriFault}
    (hf : checkHostAndPort t = .error f) : Clean f.message := by
  unfold checkHostAndPort at hf
  split at hf
  · exact checkBracketed_clean (cutAt_clean ht _) hf
  · next before inner hsplit =>
    have hinner := (splitAtFirst?_clean ht hsplit).2
    dsimp only at hf
    split at hf
    · cases hf
      exact clean_text _
    · exact checkBracketed_clean (cutAt_clean hinner _) hf

theorem checkHost_clean {netloc : Text} (h : Clean netloc) {f : UriFault}
    (hf : checkHost netloc = .error f) : Clean f.message := by
  unfold checkHost at hf
  split at hf
  · refine checkHostAndPort_clean ?_ hf
    cases hlast : (splitOn (code '@') netloc).getLast? with
    | none => exact clean_nil
    | some part => exact splitOn_clean h part (List.mem_of_getLast? hlast)
  · cases hf
  · cases hf
    exact clean_text _

theorem checkDelimiters_clean {netloc : Text} (h : Clean netloc) {f : UriFault}
    (hf : checkDelimiters netloc = .error f) : Clean f.message := by
  unfold checkDelimiters at hf
  split at hf
  · cases hf
    exact clean_append.mpr ⟨clean_append.mpr ⟨clean_text _, h⟩, clean_text _⟩
  · cases hf

theorem splitScheme_clean {t : Text} (ht : Clean t) : Clean (splitScheme t).2 := by
  unfold splitScheme
  split
  · next hsplit =>
    split
    · exact (splitAtFirst?_clean ht hsplit).2
    · exact ht
  · exact ht

theorem splitUri_clean {uri : Text} (h : Clean uri) {f : UriFault} (hf : splitUri uri = .error f) :
    Clean f.message := by
  have htrim : Clean ((uri.dropWhile (· ≤ 32)).filter fun c => !(c = 9 || c = 10 || c = 13)) :=
    h.subset fun c hc => List.dropWhile_subset _ (List.mem_filter.mp hc).1
  have hrest := splitScheme_clean htrim
  have hnetloc : ∀ {p : Code → Bool} {hasHost : Bool} {rest : Text}, Clean rest →
      Clean (if hasHost then (rest.drop 2).takeWhile p else []) := by
    intro p hasHost rest hrest
    cases hasHost
    · exact clean_nil
    · exact (hrest.drop 2).subset (List.takeWhile_subset _)
  dsimp only [splitUri] at hf
  split at hf
  · next e hhost =>
    cases hf
    exact checkHost_clean (hnetloc hrest) hhost
  · next e _ hdelimiters =>
    cases hf
    exact checkDelimiters_clean (hnetloc hrest) hdelimiters
  · cases hf

/-- What is wrong with a URI can be told if the URI can. -/
theorem fsPath?_clean {uri : Text} (h : Clean uri) {f : UriFault} (hf : fsPath? uri = .error f) :
    Clean f.message := by
  unfold fsPath? at hf
  split at hf
  · next e he =>
    cases hf
    exact splitUri_clean h he
  · split at hf
    · cases hf
    · dsimp only at hf
      repeat' split at hf
      all_goals cases hf

/-- What is wrong with the root of a workspace can be told if the parameters can. -/
theorem rootOf_clean {ms : Members} (h : ∀ m ∈ ms, Clean m.1 ∧ m.2.Clean) {c : Crash}
    (hc : rootOf ms = .error c) : Clean c.message := by
  dsimp only [rootOf] at hc
  split at hc
  · cases hc
  · next uri huri =>
    split at hc
    · next f hf =>
      cases hc
      refine fsPath?_clean ?_ hf
      cases hget : Table.get? (text "rootUri") ms with
      | none =>
        rw [hget] at huri
        cases huri
      | some v =>
        rw [hget] at huri
        unfold nonEmpty? at huri
        split at huri
        · next heq =>
          cases huri
          cases heq
          exact clean_get? h hget
        · cases huri
    · cases hc
    · cases hc

end LuaServer
