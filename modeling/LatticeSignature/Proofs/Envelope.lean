import LatticeSignature.Legacy.Signer
import LatticeSignature.Proofs.Completeness
import LatticeSignature.Standard.Signer

/-!
# Envelopes of signed messages

An envelope is cut at the length of a signature, whatever its own length is, and opens if the signature
in front holds for what is behind it. What a key pair or a signer wraps opens again.

* `Envelope.split?_eq_some_iff`: there is one way to split an envelope.
* `Envelope.OpensExactly`, **`Envelope.opensExactly_unwrap`**: unwrapping gives away the messages behind
  signatures that pass the check, and nothing else.
* `SignerConfig.withRandomized_ofContext_eq_ok_iff`: the configurations that can be made.
* `Signer.LacksRandomness`: when a signer refuses to sign.
* `KeyPair.unwrap_of_wrap`, `Signer.unwrap_of_wrap`, `LegacySigner.unwrap_of_wrap`: there and back.
* **`unwrap_wrap`**.
-/

namespace LatticeSignature

/-! ## Opening -/

namespace Envelope

/-- **The opening of envelopes** whose signatures have a given length and pass a check: the message, or
nothing if the check rejects or the bytes do not hold a whole signature. It ends if the check does. -/
structure OpensExactly (length : ℕ) (check : Bytes → Bytes → Protocol Bool)
    (run : Bytes → Protocol (Option Bytes)) : Prop where
  some_iff : ∀ envelope message events, (run envelope).fresh = some (some message, events) ↔
    ∃ signature, signature.length = length ∧ envelope = signature ++ message ∧
      (check signature message).fresh = some (true, events)
  none_iff : ∀ envelope events, (run envelope).fresh = some (none, events) ↔
    (envelope.length < length ∧ events = []) ∨
      ∃ signature message, signature.length = length ∧ envelope = signature ++ message ∧
        (check signature message).fresh = some (false, events)
  isSome_iff : ∀ envelope, (run envelope).fresh.isSome ↔
    ∀ signature message, signature.length = length → envelope = signature ++ message →
      (check signature message).fresh.isSome

section Unwrap

variable {length : ℕ} {check : Bytes → Bytes → Protocol Bool} {signature message envelope : Bytes}
  {events : List Event}

theorem split?_eq_some_iff : split? length envelope = some (signature, message) ↔
    signature.length = length ∧ envelope = signature ++ message := by
  unfold split?
  constructor
  · intro h
    split at h
    · rename_i hle
      obtain ⟨rfl, rfl⟩ := Prod.mk.inj (Option.some_inj.1 h)
      exact ⟨List.length_take_of_le hle, (List.take_append_drop length envelope).symm⟩
    · exact absurd h (by simp)
  · rintro ⟨rfl, rfl⟩
    rw [if_pos (by simp), List.take_left, List.drop_left]

theorem take_of_split? (h : split? length envelope = some (signature, message)) :
    envelope.take length = signature := by
  obtain ⟨rfl, rfl⟩ := split?_eq_some_iff.1 h
  exact List.take_left

theorem split?_eq_none_iff : split? length envelope = none ↔ envelope.length < length := by
  unfold split?
  split
  · rename_i hle
    exact iff_of_false (by simp) (not_lt.2 hle)
  · rename_i hlt
    exact iff_of_true rfl (not_le.1 hlt)

theorem fresh_unwrap_of_none (h : split? length envelope = none) :
    (unwrap length check envelope).fresh = some (none, []) := by
  rw [unwrap, h]
  rfl

theorem fresh_unwrap_of_some (h : split? length envelope = some (signature, message)) :
    (unwrap length check envelope).fresh =
      (check signature message).fresh.map fun x => (if x.1 then some message else none, x.2) := by
  calc (unwrap length check envelope).fresh
      = (check signature message >>= fun ok => pure (if ok then some message else none)).fresh := by
        rw [unwrap, h]
        refine congrArg Protocol.fresh (congrArg (check signature message >>= ·) (funext fun ok => ?_))
        cases ok <;> rfl
    _ = _ := Protocol.fresh_bind_pure _ _

theorem fresh_unwrap_eq_message_iff : (unwrap length check envelope).fresh = some (some message, events) ↔
    ∃ signature, split? length envelope = some (signature, message) ∧
      (check signature message).fresh = some (true, events) := by
  cases hs : split? length envelope with
  | none =>
    rw [fresh_unwrap_of_none hs]
    simp
  | some parts =>
    obtain ⟨s, m⟩ := parts
    rw [fresh_unwrap_of_some hs, Option.map_eq_some_iff]
    constructor
    · rintro ⟨⟨ok, log⟩, hcheck, heq⟩
      cases ok with
      | false => simp at heq
      | true =>
        obtain ⟨rfl, rfl⟩ : m = message ∧ log = events := by simpa using heq
        exact ⟨s, rfl, hcheck⟩
    · rintro ⟨s', heq, hcheck⟩
      obtain ⟨rfl, rfl⟩ := Prod.mk.inj (Option.some_inj.1 heq)
      exact ⟨_, hcheck, rfl⟩

theorem fresh_unwrap_eq_nothing_iff : (unwrap length check envelope).fresh = some (none, events) ↔
    (split? length envelope = none ∧ events = []) ∨
      ∃ signature message, split? length envelope = some (signature, message) ∧
        (check signature message).fresh = some (false, events) := by
  cases hs : split? length envelope with
  | none =>
    rw [fresh_unwrap_of_none hs]
    simp [eq_comm]
  | some parts =>
    obtain ⟨s, m⟩ := parts
    rw [fresh_unwrap_of_some hs, Option.map_eq_some_iff]
    constructor
    · rintro ⟨⟨ok, log⟩, hcheck, heq⟩
      cases ok with
      | true => simp at heq
      | false =>
        obtain rfl : log = events := by simpa using heq
        exact Or.inr ⟨s, m, rfl, hcheck⟩
    · rintro (⟨hnone, -⟩ | ⟨s', m', heq, hcheck⟩)
      · exact absurd hnone (by simp)
      · obtain ⟨rfl, rfl⟩ := Prod.mk.inj (Option.some_inj.1 heq)
        exact ⟨_, hcheck, rfl⟩

theorem isSome_fresh_unwrap_iff : (unwrap length check envelope).fresh.isSome ↔
    ∀ signature message, split? length envelope = some (signature, message) →
      (check signature message).fresh.isSome := by
  cases hs : split? length envelope with
  | none =>
    rw [fresh_unwrap_of_none hs]
    simp
  | some parts =>
    obtain ⟨s, m⟩ := parts
    rw [fresh_unwrap_of_some hs, Option.isSome_map]
    constructor
    · intro hcheck s' m' heq
      obtain ⟨rfl, rfl⟩ := Prod.mk.inj (Option.some_inj.1 heq)
      exact hcheck
    · exact fun hall => hall s m rfl

/-- **Unwrapping opens exactly what its check accepts.** -/
theorem opensExactly_unwrap (length : ℕ) (check : Bytes → Bytes → Protocol Bool) :
    OpensExactly length check (unwrap length check) := by
  refine ⟨fun envelope message events => ?_, fun envelope events => ?_, fun envelope => ?_⟩
  · rw [fresh_unwrap_eq_message_iff]
    simp only [split?_eq_some_iff, and_assoc]
  · rw [fresh_unwrap_eq_nothing_iff]
    simp only [split?_eq_some_iff, split?_eq_none_iff, and_assoc]
  · rw [isSome_fresh_unwrap_iff]
    simp only [split?_eq_some_iff, and_imp]

end Unwrap

theorem exists_unwrap_append {length : ℕ} {check : Bytes → Bytes → Protocol Bool} {message : Bytes}
    (signature : ByteString length)
    (h : ∃ log, (check signature.bytes message).fresh = some (true, log)) :
    ∃ log, (unwrap length check (join signature.bytes message)).fresh = some (some message, log) := by
  obtain ⟨log, hcheck⟩ := h
  exact ⟨log, fresh_unwrap_eq_message_iff.2
    ⟨_, split?_eq_some_iff.2 ⟨signature.length_eq, rfl⟩, hcheck⟩⟩

end Envelope

/-! ## What opens -/

section Open

variable {O : Oracle}

theorem PublicKey.exists_unwrap_of_lt {publicKey : PublicKey} {context : Option Bytes}
    (h : 255 < (context.getD []).length) (envelope : Bytes) :
    ∃ events, (unwrap O publicKey envelope context).fresh = some (none, events) := by
  cases hs : Envelope.split? 4627 envelope with
  | none => exact ⟨[], Envelope.fresh_unwrap_of_none hs⟩
  | some parts =>
    exact ⟨_, Envelope.fresh_unwrap_eq_nothing_iff.2
      (Or.inr ⟨parts.1, parts.2, hs, Standard.fresh_verify_of_lt h⟩)⟩

theorem PublicKey.isSome_unwrap {publicKey : PublicKey} (context : Option Bytes) {envelope : Bytes}
    (hstop : SamplersStop O .standard (envelope.take 4627) publicKey.bytes) :
    (unwrap O publicKey envelope context).fresh.isSome := by
  refine Envelope.isSome_fresh_unwrap_iff.2 fun signature message hs => ?_
  have htake := Envelope.take_of_split? hs
  obtain ⟨accepted, events, hrun, -⟩ := Standard.fresh_verify (htake ▸ hstop)
  exact Option.isSome_iff_exists.2 ⟨_, hrun⟩

theorem Legacy.isSome_unwrap {publicKey : PublicKey} {envelope : Bytes}
    (hstop : SamplersStop O .legacy (envelope.take 4595) publicKey.bytes) :
    (unwrap O envelope publicKey).fresh.isSome := by
  refine Envelope.isSome_fresh_unwrap_iff.2 fun signature message hs => ?_
  have htake := Envelope.take_of_split? hs
  obtain ⟨accepted, events, hrun, -⟩ := Legacy.fresh_verify (htake ▸ hstop)
  exact Option.isSome_iff_exists.2 ⟨_, hrun⟩

end Open

/-! ## Configurations -/

namespace SignerConfig

variable {context : Bytes} {enabled : Bool} {config : SignerConfig} {e : Error}

/-- **Every configuration can be made, in one way.** -/
theorem withRandomized_ofContext_eq_ok_iff :
    (ofContext context).map (fun c => c.withRandomized enabled) = .ok config ↔
      config.context = context ∧ config.randomized = enabled := by
  obtain ⟨context', randomized, hlength⟩ := config
  unfold ofContext
  split
  · simp [Except.map, withRandomized, eq_comm]
  · rename_i hlong
    refine iff_of_false (by simp [Except.map]) ?_
    rintro ⟨rfl, -⟩
    exact hlong hlength

theorem ofContext_eq_error_iff :
    ofContext context = .error e ↔ 255 < context.length ∧ e = .contextTooLong context.length := by
  unfold ofContext
  split
  · rename_i hle
    exact iff_of_false (by simp) fun h => absurd h.1 (not_lt.2 hle)
  · rename_i hlong
    simp [not_le.1 hlong, eq_comm]

end SignerConfig

/-! ## There and back -/

section Wrap

variable {O : Oracle} {message : Bytes} {later : List Event}

theorem Standard.exists_signature_of_sign {sk : SecretKey .standard} {context : Bytes}
    {randomness : ByteString 32} {result : Except Error (Signature .standard)} (hctx : context.length ≤ 255)
    (h : (sign O sk message context randomness).fresh = some (result, later)) :
    ∃ signature, result = .ok signature := by
  obtain ⟨hasher, hrun⟩ := Protocol.fresh_eq_some_iff.1 h
  rw [sign_apply hctx, Option.map_eq_some_iff] at hrun
  obtain ⟨⟨signature, session⟩, -, heq⟩ := hrun
  exact ⟨signature, (Prod.mk.inj heq).1.symm⟩

theorem KeyPair.fresh_wrap (keys : KeyPair .standard) (message : Bytes) (context : Option Bytes)
    (hedge : Option (ByteString 32)) : (wrap O keys message context hedge).fresh =
      (sign O keys message context hedge).fresh.map
        fun x => (x.1.map fun signature => Envelope.join signature.bytes message, x.2) := by
  rw [← Protocol.fresh_bind_pure]
  refine congrArg Protocol.fresh (congrArg (sign O keys message context hedge >>= ·) (funext fun result => ?_))
  cases result <;> rfl

/-- **What a generated key pair wraps opens again** under its public key and the same context. -/
theorem KeyPair.unwrap_of_wrap {seed : ByteString 32} {keys : KeyPair .standard} {events : List Event}
    {context : Option Bytes} {hedge : Option (ByteString 32)} {result : Except Error Bytes}
    (hgen : (generate O .standard seed).fresh = some (keys, events))
    (hctx : (context.getD []).length ≤ 255)
    (h : (wrap O keys message context hedge).fresh = some (result, later)) :
    ∃ envelope, result = .ok envelope ∧ ∀ context' : Option Bytes, context'.getD [] = context.getD [] →
      ∃ log, (PublicKey.unwrap O keys.publicKey envelope context').fresh = some (some message, log) := by
  rw [fresh_wrap, Option.map_eq_some_iff] at h
  obtain ⟨⟨signed, log⟩, hsign, heq⟩ := h
  obtain ⟨signature, later', rfl, hverify⟩ := Standard.fresh_verify_of_sign hctx hgen hsign
  refine ⟨_, (Prod.mk.inj heq).1.symm, fun context' hcontext => ?_⟩
  refine Envelope.exists_unwrap_append signature ⟨later', ?_⟩
  rw [PublicKey.check, hcontext]
  exact hverify

namespace Signer

variable {seed : Seed} {config : SignerConfig} {signer : Signer} {events : List Event}
  {drawn : Option (ByteString 32)}

theorem exists_keys_of_ofSeed (h : (ofSeed O seed config).fresh = some (signer, events)) :
    ∃ keys, (KeyPair.generate O .standard seed.bytes).fresh = some (keys, events) ∧
      signer = ⟨seed, keys, config⟩ := by
  rw [ofSeed, Protocol.fresh_bind_pure, Option.map_eq_some_iff] at h
  obtain ⟨⟨keys, log⟩, hgen, heq⟩ := h
  obtain ⟨rfl, rfl⟩ := Prod.mk.inj heq
  exact ⟨keys, hgen, rfl⟩

/-- The configuration asks for randomness, and none could be drawn. -/
def LacksRandomness (s : Signer) (drawn : Option (ByteString 32)) : Prop :=
  s.config.randomized = true ∧ drawn = none

theorem sign_of_lacks (h : signer.LacksRandomness drawn) (message : Bytes) :
    sign O signer message drawn = pure (.error .entropy) := by
  have hhedge : signer.hedge drawn = .error .entropy := by
    unfold hedge
    rw [if_pos h.1, h.2]
  rw [sign, hhedge]

theorem wrap_of_lacks (h : signer.LacksRandomness drawn) (message : Bytes) :
    wrap O signer message drawn = pure (.error .entropy) := by
  rw [wrap, sign_of_lacks h]
  rfl

theorem exists_hedge (h : ¬signer.LacksRandomness drawn) : ∃ hedged, signer.hedge drawn = .ok hedged := by
  unfold hedge
  by_cases hrandomized : signer.config.randomized = true
  · rw [if_pos hrandomized]
    cases drawn with
    | none => exact absurd ⟨hrandomized, rfl⟩ h
    | some bytes => exact ⟨_, rfl⟩
  · rw [if_neg hrandomized]
    exact ⟨_, rfl⟩

theorem exists_signature_of_sign {result : Except Error (Signature .standard)}
    (hdrawn : ¬signer.LacksRandomness drawn)
    (h : (sign O signer message drawn).fresh = some (result, later)) :
    ∃ signature, result = .ok signature := by
  obtain ⟨hedged, heq⟩ := exists_hedge hdrawn
  rw [sign, heq] at h
  exact Standard.exists_signature_of_sign signer.config.length_context h

/-- **What a signer wraps opens again**, whatever it has drawn. -/
theorem unwrap_of_wrap {result : Except Error Bytes}
    (hseed : (ofSeed O seed config).fresh = some (signer, events))
    (hdrawn : ¬signer.LacksRandomness drawn)
    (h : (wrap O signer message drawn).fresh = some (result, later)) :
    ∃ envelope log, result = .ok envelope ∧
      (unwrap O signer envelope).fresh = some (some message, log) := by
  obtain ⟨hedged, heq⟩ := exists_hedge hdrawn
  obtain ⟨keys, hgen, rfl⟩ := exists_keys_of_ofSeed hseed
  have hwrap : (KeyPair.wrap O keys message (some config.context) hedged).fresh = some (result, later) := by
    rw [wrap, sign, heq] at h
    exact h
  have hctx : ((some config.context).getD []).length ≤ 255 := config.length_context
  obtain ⟨envelope, rfl, hopens⟩ := KeyPair.unwrap_of_wrap hgen hctx hwrap
  obtain ⟨log, hrun⟩ := hopens (some config.context) rfl
  exact ⟨envelope, log, rfl, hrun⟩

end Signer

theorem LegacySigner.exists_keys_of_ofSeed {seed : Seed} {signer : LegacySigner} {events : List Event}
    (h : (ofSeed O seed).fresh = some (signer, events)) :
    ∃ keys, (KeyPair.generate O .legacy seed.bytes).fresh = some (keys, events) ∧
      signer = ⟨seed, keys⟩ := by
  rw [ofSeed, Protocol.fresh_bind_pure, Option.map_eq_some_iff] at h
  obtain ⟨⟨keys, log⟩, hgen, heq⟩ := h
  obtain ⟨rfl, rfl⟩ := Prod.mk.inj heq
  exact ⟨keys, hgen, rfl⟩

theorem LegacySigner.unwrap_of_wrap {seed : Seed} {signer : LegacySigner} {events : List Event}
    {envelope : Bytes} (hseed : (ofSeed O seed).fresh = some (signer, events))
    (h : (wrap O signer message).fresh = some (envelope, later)) :
    ∃ log, (unwrap O signer envelope).fresh = some (some message, log) := by
  obtain ⟨keys, hgen, rfl⟩ := exists_keys_of_ofSeed hseed
  rw [wrap, Protocol.fresh_bind_pure, Option.map_eq_some_iff] at h
  obtain ⟨⟨signature, log⟩, hsign, heq⟩ := h
  obtain ⟨rfl, -⟩ := Prod.mk.inj heq
  exact Envelope.exists_unwrap_append signature (Legacy.fresh_verify_of_sign hgen hsign)

end Wrap

/-- **Envelopes.** What a generated key pair wraps under a context of at most 255 bytes opens to the
message under its public key, no context being the empty one. For every public key, context and byte
string, an envelope opens exactly to the message behind a signature of the right length that holds for
it; nothing opens under a context that is too long. The same holds for the predecessor scheme, and for the
signer of a seed under every configuration: it refuses to sign exactly if randomness is asked for and
nothing could be drawn. -/
theorem unwrap_wrap (O : Oracle) :
    (∀ (seed : ByteString 32) (keys : KeyPair .standard) (events : List Event),
      (KeyPair.generate O .standard seed).fresh = some (keys, events) →
      ∀ (message : Bytes) (context : Option Bytes) (hedge : Option (ByteString 32))
        (result : Except Error Bytes) (later : List Event), (context.getD []).length ≤ 255 →
      (KeyPair.wrap O keys message context hedge).fresh = some (result, later) →
      ∃ envelope, result = .ok envelope ∧
        ∀ context' : Option Bytes, context'.getD [] = context.getD [] → ∃ log,
          (PublicKey.unwrap O keys.publicKey envelope context').fresh = some (some message, log)) ∧
    (∀ (keys : KeyPair .standard) (message envelope : Bytes) (hedge : Option (ByteString 32)),
      KeyPair.wrap O keys message none hedge = KeyPair.wrap O keys message (some []) hedge ∧
      PublicKey.unwrap O keys.publicKey envelope none =
        PublicKey.unwrap O keys.publicKey envelope (some [])) ∧
    (∀ (publicKey : PublicKey) (context : Option Bytes),
      Envelope.OpensExactly 4627
        (fun signature message => PublicKey.check O publicKey message signature context)
        (fun envelope => PublicKey.unwrap O publicKey envelope context) ∧
      ∀ envelope,
        (255 < (context.getD []).length → ∃ events,
          (PublicKey.unwrap O publicKey envelope context).fresh = some (none, events)) ∧
        (SamplersStop O .standard (envelope.take 4627) publicKey.bytes →
          (PublicKey.unwrap O publicKey envelope context).fresh.isSome)) ∧
    (∀ signer : Signer,
      (∀ message drawn, signer.LacksRandomness drawn →
        Signer.sign O signer message drawn = pure (.error .entropy) ∧
          Signer.wrap O signer message drawn = pure (.error .entropy)) ∧
      (∀ message drawn result later, ¬signer.LacksRandomness drawn →
        (Signer.sign O signer message drawn).fresh = some (result, later) →
        ∃ signature, result = .ok signature) ∧
      Envelope.OpensExactly 4627 (fun signature message => Signer.check O signer message signature)
        (Signer.unwrap O signer) ∧
      (∀ envelope, SamplersStop O .standard (envelope.take 4627) signer.keys.publicKey.bytes →
        (Signer.unwrap O signer envelope).fresh.isSome) ∧
      ∀ seed config events, (Signer.ofSeed O seed config).fresh = some (signer, events) →
        ∀ message drawn result later, ¬signer.LacksRandomness drawn →
          (Signer.wrap O signer message drawn).fresh = some (result, later) →
          ∃ envelope log, result = .ok envelope ∧
            (Signer.unwrap O signer envelope).fresh = some (some message, log)) ∧
    (∀ publicKey : PublicKey,
      Envelope.OpensExactly 4595
        (fun signature message => Legacy.verify O signature message publicKey.bytes)
        (fun envelope => Legacy.unwrap O envelope publicKey) ∧
      ∀ envelope, SamplersStop O .legacy (envelope.take 4595) publicKey.bytes →
        (Legacy.unwrap O envelope publicKey).fresh.isSome) ∧
    ∀ signer : LegacySigner,
      Envelope.OpensExactly 4595 (fun signature message => LegacySigner.check O signer message signature)
        (LegacySigner.unwrap O signer) ∧
      ∀ seed events, (LegacySigner.ofSeed O seed).fresh = some (signer, events) →
        ∀ message envelope later, (LegacySigner.wrap O signer message).fresh = some (envelope, later) →
          ∃ log, (LegacySigner.unwrap O signer envelope).fresh = some (some message, log) := by
  refine ⟨?_, ?_, ?_, ?_, ?_, ?_⟩
  · intro seed keys events hgen message context hedge result later hctx h
    exact KeyPair.unwrap_of_wrap hgen hctx h
  · exact fun keys message envelope hedge => ⟨rfl, rfl⟩
  · exact fun publicKey context => ⟨Envelope.opensExactly_unwrap 4627 _, fun envelope =>
      ⟨fun h => PublicKey.exists_unwrap_of_lt h envelope, PublicKey.isSome_unwrap context⟩⟩
  · exact fun signer => ⟨fun message drawn h => ⟨Signer.sign_of_lacks h _, Signer.wrap_of_lacks h _⟩,
      fun _ _ _ _ => Signer.exists_signature_of_sign, Envelope.opensExactly_unwrap 4627 _,
      fun _ => PublicKey.isSome_unwrap _, fun _ _ _ hseed _ _ _ _ => Signer.unwrap_of_wrap hseed⟩
  · exact fun publicKey => ⟨Envelope.opensExactly_unwrap 4595 _, fun _ => Legacy.isSome_unwrap⟩
  · exact fun signer => ⟨Envelope.opensExactly_unwrap 4595 _,
      fun _ _ hseed _ _ _ => LegacySigner.unwrap_of_wrap hseed⟩

/-- A signer that draws randomness. -/
theorem unwrap_wrap_reluctant :
    (∃ (keys : KeyPair .standard) (envelope : Bytes) (log : List Event),
      (KeyPair.wrap .reluctant keys [1, 2] (some [7]) none).fresh =
          some (.ok envelope, [.signatureAccepted 2]) ∧
        (PublicKey.unwrap .reluctant keys.publicKey envelope (some [7])).fresh = some (some [1, 2], log)) ∧
    (∃ events, (PublicKey.unwrap .reluctant (.zero 2592) (List.replicate 5000 0)
      (some (List.replicate 256 0))).fresh = some (none, events)) ∧
    (PublicKey.unwrap .reluctant (.zero 2592) (List.replicate 5000 0) none).fresh.isSome ∧
    (∃ (signer : Signer) (envelope : Bytes) (log : List Event), signer.config.context = [7] ∧
      signer.config.randomized = true ∧
      (Signer.wrap .reluctant signer [1, 2] (some (.zero 32))).fresh =
          some (.ok envelope, [.signatureAccepted 2]) ∧
        (Signer.unwrap .reluctant signer envelope).fresh = some (some [1, 2], log) ∧
        (Signer.sign .reluctant signer [1, 2] none).fresh = some (.error .entropy, [])) ∧
    (Legacy.unwrap .reluctant (List.replicate 5000 0) (.zero 2592)).fresh.isSome ∧
    ∃ (signer : LegacySigner) (envelope : Bytes) (log : List Event),
      (LegacySigner.wrap .reluctant signer [1, 2]).fresh = some (envelope, [.signatureAccepted 2]) ∧
        (LegacySigner.unwrap .reluctant signer envelope).fresh = some (some [1, 2], log) := by
  obtain ⟨hkeys, -, hopen, hsigner, hlegacy, hlegacySigner⟩ := unwrap_wrap .reluctant
  have hctx : ([7] : Bytes).length ≤ 255 := by decide
  obtain ⟨keys, events, signature, hgen, hsign⟩ :=
    Standard.exists_sign_reluctant (.zero 32) [1, 2] (.zero 32) hctx
  have hwrap {hedge : Option (ByteString 32)} (hzero : hedge.getD (.zero 32) = .zero 32) :
      (KeyPair.wrap .reluctant keys [1, 2] (some [7]) hedge).fresh =
        some (.ok (Envelope.join signature.bytes [1, 2]), [.signatureAccepted 2]) := by
    have hrun : (KeyPair.sign .reluctant keys [1, 2] (some [7]) hedge).fresh =
        some (.ok signature, [.signatureAccepted 2]) := by
      rw [KeyPair.sign, SecretKey.sign, hzero]
      exact hsign
    rw [KeyPair.fresh_wrap, hrun]
    rfl
  refine ⟨?_, ?_, ?_, ?_, ?_, ?_⟩
  · obtain ⟨_, heq, hopens⟩ := hkeys _ keys events hgen [1, 2] (some [7]) none _ _ hctx (hwrap rfl)
    obtain rfl := Except.ok.inj heq
    obtain ⟨log, hrun⟩ := hopens (some [7]) rfl
    exact ⟨keys, _, log, hwrap rfl, hrun⟩
  · refine ((hopen (.zero 2592) (some (List.replicate 256 0))).2 _).1 ?_
    rw [Option.getD_some, List.length_replicate]
    norm_num
  · exact ((hopen (.zero 2592) none).2 _).2 (samplersStop_repeating _ _ _ _)
  · let signer : Signer := ⟨⟨.zero 32⟩, keys, ⟨[7], true, hctx⟩⟩
    have hseed : (Signer.ofSeed .reluctant ⟨.zero 32⟩ ⟨[7], true, hctx⟩).fresh = some (signer, events) := by
      rw [Signer.ofSeed, Protocol.fresh_bind_pure, hgen]
      rfl
    obtain ⟨hlacks, -, -, -, hback⟩ := hsigner signer
    have hdrawn : ¬signer.LacksRandomness (some (.zero 32)) := fun h => nomatch h.2
    obtain ⟨_, log, heq, hrun⟩ := hback _ _ _ hseed [1, 2] _ _ _ hdrawn (hwrap rfl)
    obtain rfl := Except.ok.inj heq
    refine ⟨signer, _, log, rfl, rfl, hwrap rfl, hrun, ?_⟩
    rw [(hlacks [1, 2] none ⟨rfl, rfl⟩).1]
    rfl
  · exact (hlegacy (.zero 2592)).2 _ (samplersStop_repeating _ _ _ _)
  · obtain ⟨keys, events, signature, hgen, hsign⟩ :=
      exists_signFramed_reluctant .legacy (.zero 32) [] [1, 2] []
    have hseed : (LegacySigner.ofSeed .reluctant ⟨.zero 32⟩).fresh = some (⟨⟨.zero 32⟩, keys⟩, events) := by
      rw [LegacySigner.ofSeed, Protocol.fresh_bind_pure, hgen]
      rfl
    have hwrap : (LegacySigner.wrap .reluctant ⟨⟨.zero 32⟩, keys⟩ [1, 2]).fresh =
        some (Envelope.join signature.bytes [1, 2], [.signatureAccepted 2]) := by
      have hrun : (LegacySigner.sign .reluctant ⟨⟨.zero 32⟩, keys⟩ [1, 2]).fresh =
          some (signature, [.signatureAccepted 2]) := Protocol.fresh_of_apply hsign
      rw [LegacySigner.wrap, Protocol.fresh_bind_pure, hrun]
      rfl
    obtain ⟨log, hrun⟩ := (hlegacySigner ⟨⟨.zero 32⟩, keys⟩).2 _ _ hseed _ _ _ hwrap
    exact ⟨_, _, log, hwrap, hrun⟩

end LatticeSignature
