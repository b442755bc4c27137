import LatticeSignature.Proofs.Binding
import LatticeSignature.Proofs.Support

/-!
# What a verification reports

A verification ends with an answer and with a log of what it found. The log says as much as the answer.
An accepted signature leaves one line, with the number of ones in its hint, which is the last byte of the
signature. A rejected one leaves the first reason to reject it, in the order of the tests; only a
mismatch of the challenge comes behind the line of a decoded signature.

* `Event.written`, `Event.written_injective`: the line of an event.
* `Applies`, `firstReason`: the reasons to reject an input, and the first of them.
* `firstReason_eq_none_iff`: no reason applies to what is accepted.
* `Ends`: the answer and the events that go with a first reason.
* **`verifyFramed_ends`**: every check ends so.
* **`Ends.reported`**, **`verify_log`**: what can be told from the log.
-/

namespace LatticeSignature

/-! ## Lines -/

namespace Event

/-- The line of an event in a log: its level, its text and its numbers. -/
def written (e : Event) : Level × String × List (String × ℕ) := (e.level, e.message, e.fields)

theorem written_injective : Function.Injective written := by
  intro e e' h
  simp only [written, Prod.mk.injEq] at h
  obtain ⟨-, hmessage, hfields⟩ := h
  rcases e with _ | n | n | (n | n | n | _ | _ | _) <;>
    rcases e' with _ | m | m | (m | m | m | _ | _ | _) <;>
    simp_all [message, fields]

end Event

/-! ## Reasons -/

variable {O : Oracle} {v : Variant} {signature frame message publicKey : Bytes}

/-- **A reason applies** to a signature of `message` behind `frame`. Several may. -/
def Applies (O : Oracle) (v : Variant) (signature frame message publicKey : Bytes) : Rejection → Prop
  | .contextTooLong n => 255 < n
  | .wrongSignatureLength n => n ≠ 4563 + v.challengeBytes
  | .wrongPublicKeyLength n => n ≠ 2592
  | .malformedHint => ¬Hint.Canonical (hintSection v signature)
  | .responseOutOfRange =>
    ¬∀ (i : Fin 7) (j : Fin 256), |((responseOf v signature).number i j).toInt| < 524288 - 120
  | .challengeMismatch => ¬ChallengeAgrees O v signature frame message publicKey

/-- The reasons to reject a signature of either variant, in the order of the tests. -/
def reasons (signature publicKey : Bytes) : List Rejection :=
  [.wrongSignatureLength signature.length, .wrongPublicKeyLength publicKey.length, .malformedHint,
    .responseOutOfRange, .challengeMismatch]

open Classical in
/-- The first of some reasons that applies, if one does. -/
noncomputable def firstReason (applies : Rejection → Prop) (causes : List Rejection) : Option Rejection :=
  causes.find? fun cause => applies cause

section FirstReason

variable {applies : Rejection → Prop} {cause : Rejection} {causes : List Rejection}

theorem firstReason_cons_of_pos (h : applies cause) :
    firstReason applies (cause :: causes) = some cause := by
  unfold firstReason
  rw [List.find?_cons_of_pos]
  simpa using h

theorem firstReason_cons_of_neg (h : ¬applies cause) :
    firstReason applies (cause :: causes) = firstReason applies causes := by
  unfold firstReason
  rw [List.find?_cons_of_neg]
  simpa using h

theorem mem_of_firstReason (h : firstReason applies causes = some cause) : cause ∈ causes :=
  List.mem_of_find?_eq_some h

theorem firstReason_eq_none_iff : firstReason (Applies O v signature frame message publicKey)
    (reasons signature publicKey) = none ↔ Accepts O v signature frame message publicKey := by
  simp only [firstReason, List.find?_eq_none, decide_eq_true_eq]
  simp only [reasons, List.forall_mem_cons, Applies, not_not, ne_eq]
  constructor
  · rintro ⟨hlength, hkey, hhint, hresponse, hchallenge, -⟩
    exact ⟨hlength, hkey, hhint, hresponse, hchallenge⟩
  · rintro ⟨hlength, hkey, hhint, hresponse, hchallenge⟩
    exact ⟨hlength, hkey, hhint, hresponse, hchallenge, by simp⟩

end FirstReason

/-! ## Events -/

/-- The last byte of a signature is `hints`, and not more than fit into a section. -/
def LastCount (signature : Bytes) (hints : ℕ) : Prop :=
  signature.getLast?.map UInt8.toNat = some hints ∧ hints ≤ 75

/-- **How a verification ends**, given the first reason to reject the signature, if there is one. -/
inductive Ends (signature : Bytes) : Option Rejection → Bool → List Event → Prop
  /-- All but the last test end a verification before anything is reported. -/
  | early {cause : Rejection} (h : cause ≠ .challengeMismatch) :
    Ends signature (some cause) false [.rejected cause]
  | mismatch {hints : ℕ} (h : LastCount signature hints) :
    Ends signature (some .challengeMismatch) false [.signatureDecoded hints, .rejected .challengeMismatch]
  | accepted {hints : ℕ} (h : LastCount signature hints) :
    Ends signature none true [.signatureDecoded hints]

section Events

theorem later_eq_of_some_eq {a b : Bool} {h h' : Hasher} {events later later' : List Event}
    (heq : some (a, Session.mk h (events ++ later)) = some (b, Session.mk h' (events ++ later'))) :
    a = b ∧ later = later' := by
  simp only [Option.some.injEq, Prod.mk.injEq, Session.mk.injEq, List.append_cancel_left_eq] at heq
  exact ⟨heq.1, heq.2.2⟩

/-- **What a check of parts reports** depends on the range of the response and on the answer. The samplers
have stopped if it gets to them. -/
theorem verifyParts_events {c : ℕ} {parts : SignatureParts c} {pk : PublicKey} {mu : ByteString 64}
    {accepted : Bool} {h : Hasher} {events later : List Event}
    (hrun : verifyParts O parts pk mu ⟨.empty, events⟩ = some (accepted, ⟨h, events ++ later⟩)) :
    if parts.z.normBelow (Params.gamma1 - Params.beta) then
      (Matrix.expand O (PublicParts.decode pk).rho.bytes).isSome ∧
        (Poly.challenge O parts.challenge.bytes).isSome ∧
        later = .signatureDecoded parts.hint.weight ::
          if accepted then [] else [.rejected .challengeMismatch]
    else accepted = false ∧ later = [.rejected .responseOutOfRange] := by
  unfold verifyParts at hrun
  split
  · rename_i hb
    rw [if_pos hb, Protocol.bind_of_apply (Protocol.report_apply ..)] at hrun
    obtain ⟨A, s, hmatrix, hrun⟩ := Protocol.bind_eq_some_iff.1 hrun
    obtain ⟨hA, rfl⟩ := Protocol.ofOption_eq_some_iff.1 hmatrix
    obtain ⟨challenge, s, hdrawn, hrun⟩ := Protocol.bind_eq_some_iff.1 hrun
    obtain ⟨hc, rfl⟩ := Protocol.ofOption_eq_some_iff.1 hdrawn
    rw [Protocol.bind_of_apply (Protocol.hash_apply ..)] at hrun
    refine ⟨Option.isSome_of_eq_some hA, Option.isSome_of_eq_some hc, ?_⟩
    split at hrun
    · rw [Protocol.pure_apply] at hrun
      obtain ⟨rfl, rfl⟩ := later_eq_of_some_eq hrun
      rfl
    · rw [reject_apply, List.append_assoc] at hrun
      obtain ⟨rfl, rfl⟩ := later_eq_of_some_eq hrun
      rfl
  · rename_i hb
    rw [if_neg hb, reject_apply] at hrun
    obtain ⟨rfl, rfl⟩ := later_eq_of_some_eq hrun
    exact ⟨rfl, rfl⟩

theorem firstReason_of_error {cause : Rejection} (h : parseSigned v signature publicKey = .error cause)
    (O : Oracle) (frame message : Bytes) :
    firstReason (Applies O v signature frame message publicKey) (reasons signature publicKey) = some cause ∧
      cause ≠ .challengeMismatch := by
  unfold parseSigned at h
  split at h
  · rename_i hlength
    cases h
    exact ⟨firstReason_cons_of_pos hlength, by simp⟩
  rename_i hlength
  rw [reasons, firstReason_cons_of_neg hlength]
  split at h
  · rename_i hkey
    cases h
    exact ⟨firstReason_cons_of_pos (ByteString.ofBytes?_eq_none_iff.1 hkey), by simp⟩
  rename_i pk hkey
  rw [firstReason_cons_of_neg (not_not.2 ((ByteString.ofBytes?_eq_some_iff.1 hkey) ▸ pk.length_eq))]
  split at h
  · rename_i hdecode
    cases h
    refine ⟨firstReason_cons_of_pos fun hcanonical => ?_, by simp⟩
    have hsome := SignatureParts.isSome_decode? (not_not.1 hlength) hcanonical
    rw [hdecode] at hsome
    exact absurd hsome (by simp)
  · cases h

theorem firstReason_of_ok {parts : SignatureParts v.challengeBytes} {pk : PublicKey}
    (h : parseSigned v signature publicKey = .ok (parts, pk)) (O : Oracle) (frame message : Bytes) :
    firstReason (Applies O v signature frame message publicKey) (reasons signature publicKey) =
      firstReason (Applies O v signature frame message publicKey)
        [.responseOutOfRange, .challengeMismatch] := by
  obtain ⟨hdecode, hkey⟩ := parseSigned_eq_ok_iff.1 h
  obtain ⟨hlength, hcanonical, -⟩ := SignatureParts.decode?_eq_some_iff.1 hdecode
  rw [reasons, firstReason_cons_of_neg (not_not.2 hlength),
    firstReason_cons_of_neg (not_not.2 (hkey ▸ pk.length_eq)),
    firstReason_cons_of_neg (not_not.2 hcanonical)]

theorem lastCount_of_decode? {parts : SignatureParts v.challengeBytes}
    (h : SignatureParts.decode? v.challengeBytes signature = some parts) :
    LastCount signature parts.hint.weight := by
  obtain ⟨hlength, hcanonical, -, -, hhint⟩ := SignatureParts.decode?_eq_some_iff.1 h
  have hsection := Hint.decode?_eq_some_iff.2 ⟨hcanonical, hhint⟩
  have hlast := Hint.getLast?_of_decode? hsection
  have hall : (signature.drop (4480 + v.challengeBytes)).take 83 =
      signature.drop (4480 + v.challengeBytes) :=
    List.take_of_length_le (by rw [List.length_drop]; omega)
  have hlt : ¬signature.length ≤ 4480 + v.challengeBytes := by omega
  rw [hall, List.getLast?_drop, if_neg hlt] at hlast
  exact ⟨hlast, Hint.weight_le_of_decode? hsection⟩

/-- **A check that ends has reported what goes with its answer.** -/
theorem verifyFramed_ends {accepted : Bool} {h : Hasher} {events later : List Event}
    (hrun : verifyFramed O v signature frame message publicKey ⟨.empty, events⟩ =
      some (accepted, ⟨h, events ++ later⟩)) :
    Ends signature (firstReason (Applies O v signature frame message publicKey)
      (reasons signature publicKey)) accepted later := by
  cases hparse : parseSigned v signature publicKey with
  | error cause =>
    obtain ⟨hfirst, hne⟩ := firstReason_of_error hparse O frame message
    simp only [verifyFramed, hparse, reject_apply] at hrun
    obtain ⟨rfl, rfl⟩ := later_eq_of_some_eq hrun
    rw [hfirst]
    exact .early hne
  | ok found =>
    obtain ⟨parts, pk⟩ := found
    obtain ⟨hdecode, hkey⟩ := parseSigned_eq_ok_iff.1 hparse
    obtain ⟨-, -, hchallenge, hz, -⟩ := SignatureParts.decode?_eq_some_iff.1 hdecode
    have hparts := hrun
    simp only [verifyFramed, hparse] at hparts
    rw [Protocol.bind_of_apply (Protocol.hash_apply ..),
      Protocol.bind_of_apply (Protocol.hash_apply ..)] at hparts
    have hevents := verifyParts_events hparts
    have hbelow := responseBelow_iff ((SignatureParts.within_z_decode? hdecode).mono (by norm_num) le_rfl)
    rw [show parts.z = responseOf v signature from hz] at hevents hbelow
    rw [firstReason_of_ok hparse]
    split at hevents
    · -- Only the last test is left, and the answer is what it says.
      rename_i hb
      obtain ⟨hA, hc, rfl⟩ := hevents
      have hstop : SamplersStop O v signature publicKey := fun _ _ => ⟨hkey ▸ hA, hchallenge ▸ hc⟩
      obtain ⟨accepted', later', hrun', hiff⟩ := verifyFramed_apply hstop frame message events
      obtain ⟨rfl, -⟩ := later_eq_of_some_eq (hrun'.symm.trans hrun)
      have hin : ¬Applies O v signature frame message publicKey .responseOutOfRange :=
        not_not.2 (hbelow.1 hb)
      have hlast := lastCount_of_decode? hdecode
      rw [← firstReason_eq_none_iff, firstReason_of_ok hparse, firstReason_cons_of_neg hin] at hiff
      rw [firstReason_cons_of_neg hin]
      cases accepted' with
      | true =>
        rw [hiff.1 rfl]
        exact .accepted hlast
      | false =>
        have happlies : Applies O v signature frame message publicKey .challengeMismatch := by
          by_contra hnot
          exact absurd (hiff.2 (firstReason_cons_of_neg hnot)) (by simp)
        rw [firstReason_cons_of_pos happlies]
        exact .mismatch hlast
    · rename_i hb
      obtain ⟨rfl, rfl⟩ := hevents
      have hout : Applies O v signature frame message publicKey .responseOutOfRange :=
        fun hall => hb (hbelow.2 hall)
      rw [firstReason_cons_of_pos hout]
      exact .early (by simp)

end Events

/-! ## What the log tells -/

/-- The line of a decoded signature. -/
def decodedLine (hints : ℕ) : Level × String × List (String × ℕ) :=
  (.trace, "signature decoded", [("hints", hints)])

/-- The line of a rejected signature. -/
def rejectedLine (text : String) (numbers : List (String × ℕ)) : Level × String × List (String × ℕ) :=
  (.debug, text, numbers)

/-- The texts of the reasons to reject a signature of either variant that stand alone in a log. -/
def earlyTexts : List String :=
  ["rejecting signature: wrong signature length", "rejecting signature: wrong public key length",
    "rejecting signature: malformed hint", "rejecting signature: z out of range"]

/-- **The log agrees with the answer** and holds no reason but the first. The texts are those of the
reasons that stand alone in a log. -/
structure Reported (signature : Bytes) (texts : List String) (first : Option Rejection) (accepted : Bool)
    (log : List (Level × String × List (String × ℕ))) : Prop where
  accepted_iff : accepted = true ↔ ∃ hints, LastCount signature hints ∧ log = [decodedLine hints]
  rejected_iff : accepted = false ↔
    (∃ text ∈ texts, ∃ numbers, log = [rejectedLine text numbers]) ∨
      ∃ hints, LastCount signature hints ∧
        log = [decodedLine hints, rejectedLine "rejecting signature: challenge mismatch" []]
  mem_iff (cause : Rejection) : (Event.rejected cause).written ∈ log ↔ first = some cause

theorem decodedLine_ne_rejectedLine (hints : ℕ) (text : String) (numbers : List (String × ℕ)) :
    decodedLine hints ≠ rejectedLine text numbers := by
  simp [decodedLine, rejectedLine]

theorem written_eq_written_iff {cause cause' : Rejection} :
    (Event.rejected cause).written = (Event.rejected cause').written ↔ cause' = cause := by
  rw [Event.written_injective.eq_iff, Event.rejected.injEq, eq_comm]

theorem written_ne_decodedLine (cause : Rejection) (hints : ℕ) :
    (Event.rejected cause).written ≠ decodedLine hints := by
  simp [Event.written, Event.level, decodedLine]

/-- **The log of a verification agrees with its answer.** -/
theorem Ends.reported {first : Option Rejection} {accepted : Bool} {events : List Event}
    {texts : List String} (h : Ends signature first accepted events)
    (htexts : ∀ cause, first = some cause → cause ≠ .challengeMismatch →
      ∃ text ∈ texts, ∃ numbers, (Event.rejected cause).written = rejectedLine text numbers) :
    Reported signature texts first accepted (events.map Event.written) := by
  cases h with
  | @early cause hne =>
    obtain ⟨text, hmem, numbers, hline⟩ := htexts cause rfl hne
    refine ⟨⟨fun h => absurd h (by simp), ?_⟩,
      ⟨fun _ => Or.inl ⟨text, hmem, numbers, ?_⟩, fun _ => rfl⟩, fun other => ?_⟩
    · rintro ⟨hints, -, hlog⟩
      exact absurd (List.singleton_inj.1 hlog) (written_ne_decodedLine cause hints)
    · rw [← hline]
      rfl
    · rw [List.map_singleton, List.mem_singleton, written_eq_written_iff, Option.some_inj]
  | @mismatch hints hlast =>
    refine ⟨⟨fun h => absurd h (by simp), ?_⟩,
      ⟨fun _ => Or.inr ⟨hints, hlast, rfl⟩, fun _ => rfl⟩, fun other => ?_⟩
    · rintro ⟨_, -, hlog⟩
      exact absurd (congrArg List.length hlog) (by simp)
    · rw [List.map_cons, List.map_singleton, List.mem_cons, List.mem_singleton, written_eq_written_iff,
        Option.some_inj]
      exact or_iff_right (written_ne_decodedLine other hints)
  | @accepted hints hlast =>
    refine ⟨⟨fun _ => ⟨hints, hlast, rfl⟩, fun _ => rfl⟩,
      ⟨fun h => absurd h (by simp), ?_⟩, fun other => ?_⟩
    · rintro (⟨text, -, numbers, hlog⟩ | ⟨_, -, hlog⟩)
      · exact absurd (List.singleton_inj.1 hlog) (decodedLine_ne_rejectedLine hints text numbers)
      · exact absurd (congrArg List.length hlog) (by simp)
    · rw [List.map_singleton, List.mem_singleton]
      exact iff_of_false (written_ne_decodedLine other hints) (by simp)

theorem exists_rejectedLine {cause : Rejection} (h : cause ∈ reasons signature publicKey)
    (hne : cause ≠ .challengeMismatch) :
    ∃ text ∈ earlyTexts, ∃ numbers, (Event.rejected cause).written = rejectedLine text numbers := by
  simp only [reasons, List.mem_cons, List.not_mem_nil, or_false] at h
  rcases h with rfl | rfl | rfl | rfl | rfl
  · exact ⟨"rejecting signature: wrong signature length", by simp [earlyTexts], _, rfl⟩
  · exact ⟨"rejecting signature: wrong public key length", by simp [earlyTexts], _, rfl⟩
  · exact ⟨"rejecting signature: malformed hint", by simp [earlyTexts], _, rfl⟩
  · exact ⟨"rejecting signature: z out of range", by simp [earlyTexts], _, rfl⟩
  · exact absurd rfl hne

section Variants

variable {context : Bytes}

/-- The reasons to reject a signature under a context, in the order of the tests. -/
def reasonsUnder (context signature publicKey : Bytes) : List Rejection :=
  .contextTooLong context.length :: reasons signature publicKey

/-- The texts of the reasons to reject a signature under a context that stand alone in a log. -/
def earlyTextsUnder : List String := "rejecting signature: context too long" :: earlyTexts

theorem Standard.verify_ends {accepted : Bool} {events : List Event}
    (hrun : (Standard.verify O signature message context publicKey).fresh = some (accepted, events)) :
    Ends signature (firstReason (Applies O .standard signature (Standard.frame context) message publicKey)
      (reasonsUnder context signature publicKey)) accepted events := by
  by_cases hlong : 255 < context.length
  · rw [Standard.fresh_verify_of_lt hlong, Option.some_inj, Prod.mk.injEq] at hrun
    obtain ⟨rfl, rfl⟩ := hrun
    rw [reasonsUnder, firstReason_cons_of_pos hlong]
    exact .early (by simp)
  · have hle : ¬Params.maxContextBytes < context.length := hlong
    obtain ⟨h, hrun⟩ := Protocol.fresh_eq_some_iff.1 hrun
    rw [Standard.verify, if_neg hle] at hrun
    rw [reasonsUnder, firstReason_cons_of_neg hlong]
    exact verifyFramed_ends hrun

theorem Legacy.verify_ends {accepted : Bool} {events : List Event}
    (hrun : (Legacy.verify O signature message publicKey).fresh = some (accepted, events)) :
    Ends signature (firstReason (Applies O .legacy signature [] message publicKey)
      (reasons signature publicKey)) accepted events := by
  obtain ⟨h, hrun⟩ := Protocol.fresh_eq_some_iff.1 hrun
  exact verifyFramed_ends hrun

theorem exists_rejectedLine_under {cause : Rejection} (h : cause ∈ reasonsUnder context signature publicKey)
    (hne : cause ≠ .challengeMismatch) :
    ∃ text ∈ earlyTextsUnder, ∃ numbers,
      (Event.rejected cause).written = rejectedLine text numbers := by
  rcases List.mem_cons.1 h with rfl | hmem
  · exact ⟨_, List.mem_cons_self, _, rfl⟩
  · obtain ⟨text, htext, hline⟩ := exists_rejectedLine hmem hne
    exact ⟨text, List.mem_cons_of_mem _ htext, hline⟩

end Variants

/-- **A verification reports what it answers.** For inputs of any lengths it ends if the samplers do. If
the answer is true, the log is the line of a decoded signature with the last byte of the signature, which is
at most 75. If it is false, the log is one line with an early reason, or the line of a decoded signature and
the line of a mismatch of the challenge. A reason stands in the log exactly if it is the first one that
applies. -/
theorem verify_log (O : Oracle) (signature message context publicKey : Bytes) :
    ((SamplersStop O .standard signature publicKey →
        (Standard.verify O signature message context publicKey).fresh.isSome) ∧
      ∀ accepted events,
        (Standard.verify O signature message context publicKey).fresh = some (accepted, events) →
          Reported signature earlyTextsUnder
            (firstReason (Applies O .standard signature (0 :: context.length.toUInt8 :: context) message
              publicKey) (reasonsUnder context signature publicKey))
            accepted (events.map Event.written)) ∧
    (SamplersStop O .legacy signature publicKey →
        (Legacy.verify O signature message publicKey).fresh.isSome) ∧
      ∀ accepted events, (Legacy.verify O signature message publicKey).fresh = some (accepted, events) →
        Reported signature earlyTexts
          (firstReason (Applies O .legacy signature [] message publicKey) (reasons signature publicKey))
          accepted (events.map Event.written) := by
  refine ⟨⟨fun hstop => ?_, fun accepted events hrun => ?_⟩, fun hstop => ?_, fun accepted events hrun => ?_⟩
  · obtain ⟨accepted, events, hrun, -⟩ := Standard.fresh_verify hstop
    exact Option.isSome_of_eq_some hrun
  · exact (Standard.verify_ends hrun).reported fun cause hfirst =>
      exists_rejectedLine_under (mem_of_firstReason hfirst)
  · obtain ⟨accepted, events, hrun, -⟩ := Legacy.fresh_verify hstop
    exact Option.isSome_of_eq_some hrun
  · exact (Legacy.verify_ends hrun).reported fun cause hfirst =>
      exists_rejectedLine (mem_of_firstReason hfirst)

theorem verify_log_constant :
    (∃ accepted events,
      (Standard.verify .constant (List.replicate 4627 0xff) [] [] []).fresh = some (accepted, events) ∧
        Event.written (.rejected (.wrongPublicKeyLength 0)) ∈ events.map Event.written ∧
        ¬Hint.Canonical (hintSection .standard (List.replicate 4627 0xff))) ∧
    ∃ events hints,
      (Legacy.verify .constant (constantParts .legacy (SignatureParts.extreme 32).hint).encode.bytes []
        (ByteString.zero 2592).bytes).fresh = some (true, events) ∧
      LastCount (constantParts .legacy (SignatureParts.extreme 32).hint).encode.bytes hints ∧
      events.map Event.written = [decodedLine hints] := by
  constructor
  · obtain ⟨hends, hreported⟩ := (verify_log .constant (List.replicate 4627 0xff) [] [] []).1
    obtain ⟨⟨accepted, events⟩, hrun⟩ :=
      Option.isSome_iff_exists.1 (hends (samplersStop_repeating _ _ _ _))
    have hfirst : firstReason (Applies .constant .standard (List.replicate 4627 0xff) [0, 0] [] [])
        (reasonsUnder [] (List.replicate 4627 0xff) []) = some (.wrongPublicKeyLength 0) := by
      rw [reasonsUnder, reasons, List.length_replicate, firstReason_cons_of_neg (by simp [Applies]),
        firstReason_cons_of_neg (not_not.2 rfl), firstReason_cons_of_pos (by simp [Applies])]
      rfl
    refine ⟨accepted, events, hrun, ((hreported _ _ hrun).mem_iff _).2 hfirst, fun hcanonical => ?_⟩
    exact absurd (hcanonical.start_le_max 0 (by decide)) (by decide +kernel)
  · have hextreme := SignatureParts.inRange_extreme 32
    obtain ⟨events, htrue⟩ := Legacy.verify_constant hextreme.hint_zero_or_one hextreme.total_hint_le []
      (.zero 2592)
    have hreported := (verify_log .constant
      (constantParts .legacy (SignatureParts.extreme 32).hint).encode.bytes [] []
      (ByteString.zero 2592).bytes).2.2 _ _ htrue
    obtain ⟨hints, hlast, hlog⟩ := hreported.accepted_iff.1 rfl
    exact ⟨events, hints, htrue, hlast, hlog⟩

end LatticeSignature
