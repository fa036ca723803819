import Arknet.Consensus.NetworkBridge

/-!
Consensus messages as bytes. What is hashed for a signature determines the kind of the message and
every field of it, though one field has no fixed length; and the gossip encoding, another one, gives
back the message it was made of.
-/

namespace Arknet.Laws

open Machine Borsh Arknet.Chain Arknet.Consensus

variable {M : Malachite} (K : Primitives)

/-! ## Fields -/

theorem beBytes_fin_inj {k N : Nat} (hN : N ≤ 256 ^ k) {m n : Fin N}
    (h : beBytes k m.val = beBytes k n.val) : m = n := by
  apply Fin.ext
  exact beBytes_inj (by omega) (by omega) h

theorem i64BE_inj {x y : Int64} (h : i64BE x = i64BE y) : x = y := by
  have hword : x.toUInt64.toNat = y.toUInt64.toNat :=
    beBytes_inj (by have := x.toUInt64.toNat_lt; omega) (by have := y.toUInt64.toNat_lt; omega) h
  simpa using congrArg UInt64.toInt64 (UInt64.toNat_inj.mp hword)

@[simp] theorem length_i64BE (x : Int64) : (i64BE x).length = 8 := length_beBytes _ _

theorem voteByte_injective : Function.Injective VoteType.byte := by
  intro a b h
  cases a <;> cases b <;> first | rfl | exact absurd h (by decide)

/-- The option marker tells the two lengths of a value apart. -/
theorem encodeValue_append_inj {a b : NilOrVal} {x y : List UInt8}
    (h : encodeValue a ++ x = encodeValue b ++ y) : a = b ∧ x = y := by
  cases a with
  | nil =>
    cases b with
    | nil => exact ⟨rfl, List.append_cancel_left h⟩
    | val id => simp [encodeValue] at h
  | val id =>
    cases b with
    | nil => simp [encodeValue] at h
    | val id' =>
      simp only [encodeValue, List.cons_append, List.cons.injEq, true_and] at h
      obtain ⟨hid, hrest⟩ := List.append_inj h (by simp)
      exact ⟨congrArg NilOrVal.val (Bytes.toList_injective hid), hrest⟩

/-! ## Messages -/

theorem encodeVote_injective (hround : M.RoundsConvert) {v w : ChainVote M}
    (h : encodeVote v = encodeVote w) : v = w := by
  simp only [encodeVote, List.append_assoc] at h
  obtain ⟨hheight, h⟩ := List.append_inj h (by simp)
  obtain ⟨hr, h⟩ := List.append_inj h (by simp)
  obtain ⟨htype, h⟩ := List.append_inj h (by simp)
  obtain ⟨hvalue, haddr⟩ := encodeValue_append_inj h
  cases v
  cases w
  simp only [ChainVote.mk.injEq]
  refine ⟨beBytes_fin_inj (by decide) hheight, hround.injective (i64BE_inj hr), hvalue, ?_, ?_⟩
  · exact voteByte_injective (List.singleton_inj.mp htype)
  · exact Bytes.toList_injective haddr

theorem encodeProposal_fields (hround : M.RoundsConvert) {p q : ChainProposal M}
    (h : encodeProposal K p = encodeProposal K q) :
    p.height = q.height ∧ p.round = q.round ∧ p.polRound = q.polRound ∧
      p.valueId K = q.valueId K ∧ p.validatorAddress = q.validatorAddress := by
  simp only [encodeProposal, List.append_assoc] at h
  obtain ⟨hheight, h⟩ := List.append_inj h (by simp)
  obtain ⟨hr, h⟩ := List.append_inj h (by simp)
  obtain ⟨hpol, h⟩ := List.append_inj h (by simp)
  obtain ⟨hvalue, haddr⟩ := List.append_inj h (by simp)
  exact ⟨beBytes_fin_inj (by decide) hheight, hround.injective (i64BE_inj hr),
    hround.injective (i64BE_inj hpol), Bytes.toList_injective hvalue, Bytes.toList_injective haddr⟩

/-- Two tags that differ at a place separate whatever follows them. -/
theorem hashed_ne_of_byte {d e : List UInt8} (i : Nat) (hd : i < d.length) (he : i < e.length)
    (hne : d[i] ≠ e[i]) (x y : List UInt8) : hashed d x ≠ hashed e y := by
  intro h
  have hbyte := congrArg (fun l => l[i]?) h
  simp only [hashed, List.getElem?_append_left hd, List.getElem?_append_left he,
    List.getElem?_eq_getElem hd, List.getElem?_eq_getElem he, Option.some.injEq] at hbyte
  exact hne hbyte

theorem vote_ne_proposal (x y : List UInt8) : hashed DOMAIN_VOTE x ≠ hashed DOMAIN_PROPOSAL y :=
  hashed_ne_of_byte 17 (by decide) (by decide) (by decide) x y

theorem vote_ne_part (x y : List UInt8) : hashed DOMAIN_VOTE x ≠ hashed DOMAIN_PROPOSAL_PART y :=
  hashed_ne_of_byte 17 (by decide) (by decide) (by decide) x y

/-- The tags agree up to the version of one and the last word of the other. -/
theorem proposal_ne_part (x y : List UInt8) :
    hashed DOMAIN_PROPOSAL x ≠ hashed DOMAIN_PROPOSAL_PART y :=
  hashed_ne_of_byte 26 (by decide) (by decide) (by decide) x y

theorem signing_bytes_separate (hround : M.RoundsConvert) :
    (∀ v w : ChainVote M, v ≠ w →
      hashed DOMAIN_VOTE (encodeVote v) ≠ hashed DOMAIN_VOTE (encodeVote w)) ∧
    (∀ p q : ChainProposal M,
      p.height ≠ q.height ∨ p.round ≠ q.round ∨ p.polRound ≠ q.polRound ∨
        p.valueId K ≠ q.valueId K ∨ p.validatorAddress ≠ q.validatorAddress →
      hashed DOMAIN_PROPOSAL (encodeProposal K p) ≠ hashed DOMAIN_PROPOSAL (encodeProposal K q)) ∧
    (∀ (v : ChainVote M) (p : ChainProposal M),
      hashed DOMAIN_VOTE (encodeVote v) ≠ hashed DOMAIN_PROPOSAL (encodeProposal K p)) ∧
    (∀ (v : ChainVote M) (part : ChainProposalPart),
      hashed DOMAIN_VOTE (encodeVote v) ≠ hashed DOMAIN_PROPOSAL_PART (encodeProposalPart part)) ∧
    ∀ (p : ChainProposal M) (part : ChainProposalPart),
      hashed DOMAIN_PROPOSAL (encodeProposal K p) ≠
        hashed DOMAIN_PROPOSAL_PART (encodeProposalPart part) := by
  refine ⟨?_, ?_, fun v p => vote_ne_proposal _ _, fun v part => vote_ne_part _ _,
    fun p part => proposal_ne_part _ _⟩
  · intro v w hne h
    exact hne (encodeVote_injective hround (List.append_cancel_left h))
  · intro p q hne h
    have hfields := encodeProposal_fields K hround (List.append_cancel_left h)
    obtain ⟨hheight, hr, hpol, hvalue, haddr⟩ := hfields
    tauto

theorem signing_bytes_apart :
    hashed DOMAIN_VOTE (encodeVote (⟨5, none, .nil, .prevote, 7⟩ : ChainVote toyMalachite)) ≠
      hashed DOMAIN_VOTE (encodeVote (⟨5, none, .val 0, .prevote, 7⟩ : ChainVote toyMalachite)) := by
  apply (signing_bytes_separate toyPrimitives toy_roundsConvert).1
  intro h
  cases congrArg ChainVote.value h

/-! ## Gossip -/

theorem decodeVoteType_eq_ok {byte : UInt8} {ty : VoteType} :
    decodeVoteType byte = .ok ty ↔ byte = ty.byte := by
  unfold decodeVoteType
  constructor
  · intro h
    split_ifs at h with h1 h2
    · obtain rfl := Except.ok.inj h
      exact h1
    · obtain rfl := Except.ok.inj h
      exact h2
  · rintro rfl
    cases ty <;> rfl

theorem decodeValue_eq_ok {tag : UInt8} {bytes : Bytes 32} {value : NilOrVal} :
    decodeValue tag bytes = .ok value ↔ tag = value.tag ∧ bytes = value.bytes := by
  unfold decodeValue
  constructor
  · intro h
    split_ifs at h with h0 hzero h1
    · obtain rfl := Except.ok.inj h
      exact ⟨h0, not_not.mp hzero⟩
    · obtain rfl := Except.ok.inj h
      exact ⟨h1, rfl⟩
  · rintro ⟨rfl, rfl⟩
    cases value <;> rfl

/-- A record is accepted exactly when its type and value are those of a message. -/
theorem voteOfWire_eq_ok {wire : WireVote} {sv : SignedVote M} :
    voteOfWire wire = .ok sv ↔
      wire.voteType = sv.message.voteType.byte ∧ wire.valueTag = sv.message.value.tag ∧
        wire.value = sv.message.value.bytes ∧ wire.height = sv.message.height ∧
        M.roundFrom wire.round = sv.message.round ∧
        wire.validatorAddress = sv.message.validatorAddress ∧
        M.fromBytes wire.signature = sv.signature := by
  obtain ⟨⟨height, round, value, voteType, address⟩, signature⟩ := sv
  unfold voteOfWire
  constructor
  · intro h
    cases htype : decodeVoteType wire.voteType with
    | error e => simp [htype, bind, Except.bind] at h
    | ok ty =>
      cases hvalue : decodeValue wire.valueTag wire.value with
      | error e => simp [htype, hvalue, bind, Except.bind] at h
      | ok v =>
        simp only [htype, hvalue, bind, Except.bind, pure, Except.pure, Except.ok.injEq,
          Signed.mk.injEq, ChainVote.mk.injEq] at h
        obtain ⟨⟨rfl, rfl, rfl, rfl, rfl⟩, rfl⟩ := h
        obtain ⟨htag, hbytes⟩ := decodeValue_eq_ok.mp hvalue
        exact ⟨decodeVoteType_eq_ok.mp htype, htag, hbytes, rfl, rfl, rfl, rfl⟩
  · rintro ⟨htype, htag, hbytes, rfl, rfl, rfl, rfl⟩
    rw [decodeVoteType_eq_ok.mpr htype, decodeValue_eq_ok.mpr ⟨htag, hbytes⟩]
    rfl

theorem voteOfWire_wireVote (hround : M.RoundsConvert) (hsig : M.SignaturesConvert)
    (sv : SignedVote M) : voteOfWire (wireVote sv) = .ok sv :=
  voteOfWire_eq_ok.mpr ⟨rfl, rfl, rfl, rfl, hround _, rfl, hsig _⟩

theorem decodeSignedVote_of_wire {wire : WireVote} {bytes : List UInt8}
    (h : WireVote.codec.encode wire = some bytes) :
    decodeSignedVote bytes = (voteOfWire wire : Except WireError (SignedVote M)) := by
  unfold decodeSignedVote
  rw [Codec.fromSlice_encode _ h]

/-- Every field of a vote has a fixed length, so nothing stops it from being written. -/
theorem wireVote_encodes (wire : WireVote) : ∃ bytes, WireVote.codec.encode wire = some bytes := by
  simp [WireVote.codec, Codec.map_encode, Codec.prod_encode]

theorem wireProposal_encodes {wire : WireProposal} :
    (∃ bytes, WireProposal.codec.encode wire = some bytes) ↔ wire.block.length < 2 ^ 32 := by
  simp [WireProposal.codec, Codec.map_encode, Codec.prod_encode, Codec.bytes_encode]

theorem encodeSignedVote_eq_ok {sv : SignedVote M} {bytes : List UInt8} :
    encodeSignedVote sv = .ok bytes ↔ WireVote.codec.encode (wireVote sv) = some bytes :=
  expectEncoded_eq_ok

theorem encodeSignedProposal_eq_ok {blocks : Codec Block} {sp : SignedProposal M}
    {bytes : List UInt8} :
    encodeSignedProposal blocks sp = .ok bytes ↔
      ∃ block, blocks.encode sp.message.value = some block ∧
        WireProposal.codec.encode (wireProposal sp block) = some bytes := by
  simp only [encodeSignedProposal, bind_eq_ok, expectEncoded_eq_ok]

section

variable (hround : M.RoundsConvert) (hsig : M.SignaturesConvert)
include hround hsig

theorem vote_round_trip {sv : SignedVote M} {bytes : List UInt8}
    (h : encodeSignedVote sv = .ok bytes) : decodeSignedVote bytes = .ok sv := by
  rw [decodeSignedVote_of_wire (encodeSignedVote_eq_ok.mp h)]
  exact voteOfWire_wireVote hround hsig sv

theorem proposal_round_trip {blocks : Codec Block} {sp : SignedProposal M} {bytes : List UInt8}
    (h : encodeSignedProposal blocks sp = .ok bytes) : decodeSignedProposal blocks bytes = .ok sp := by
  obtain ⟨block, hblock, hwire⟩ := encodeSignedProposal_eq_ok.mp h
  obtain ⟨⟨height, round, value, polRound, address⟩, signature⟩ := sp
  simp only [decodeSignedProposal, Codec.fromSlice_encode _ hwire, wireProposal,
    Codec.fromSlice_encode _ hblock, hround _, hsig _]

/-- A vote is always written and a proposal whenever its block fits in a frame; what is read back is
the message itself, so that it is hashed and verified as the original. A record with an unknown
type or tag, or a nil tag with something under it, is refused, and one that is accepted has the value
it was read as. -/
theorem gossip_round_trip (blocks : Codec Block) :
    (∀ sv : SignedVote M, ∃ bytes, encodeSignedVote sv = .ok bytes ∧
      decodeSignedVote bytes = .ok sv) ∧
    (∀ sp : SignedProposal M,
      ((∃ bytes, encodeSignedProposal blocks sp = .ok bytes) ↔
        ∃ block, blocks.encode sp.message.value = some block ∧ block.length < 2 ^ 32) ∧
      ∀ bytes, encodeSignedProposal blocks sp = .ok bytes →
        decodeSignedProposal blocks bytes = .ok sp) ∧
    (∀ (sv sv' : SignedVote M) (bytes : List UInt8), encodeSignedVote sv = .ok bytes →
      decodeSignedVote bytes = .ok sv' → encodeVote sv'.message = encodeVote sv.message ∧
        ∀ key, verifySignedVote K sv'.message sv'.signature key =
          verifySignedVote K sv.message sv.signature key) ∧
    (∀ (sp sp' : SignedProposal M) (bytes : List UInt8),
      encodeSignedProposal blocks sp = .ok bytes → decodeSignedProposal blocks bytes = .ok sp' →
        encodeProposal K sp'.message = encodeProposal K sp.message ∧
        ∀ key, verifySignedProposal K sp'.message sp'.signature key =
          verifySignedProposal K sp.message sp.signature key) ∧
    (∀ (wire : WireVote) (bytes : List UInt8), WireVote.codec.encode wire = some bytes →
      (wire.voteType ≠ 1 ∧ wire.voteType ≠ 2) ∨ (wire.valueTag ≠ 0 ∧ wire.valueTag ≠ 1) ∨
        (wire.valueTag = 0 ∧ wire.value ≠ 0) →
      ∃ e, (decodeSignedVote bytes : Except WireError (SignedVote M)) = .error e) ∧
    ∀ (wire : WireVote) (bytes : List UInt8) (sv : SignedVote M),
      WireVote.codec.encode wire = some bytes → decodeSignedVote bytes = .ok sv →
        sv.message.value.tag = wire.valueTag ∧ sv.message.value.bytes = wire.value := by
  refine ⟨?_, ?_, ?_, ?_, ?_, ?_⟩
  · intro sv
    obtain ⟨bytes, hwire⟩ := wireVote_encodes (wireVote sv)
    have henc := encodeSignedVote_eq_ok.mpr hwire
    exact ⟨bytes, henc, vote_round_trip hround hsig henc⟩
  · intro sp
    refine ⟨?_, fun bytes h => proposal_round_trip hround hsig h⟩
    simp only [encodeSignedProposal_eq_ok]
    constructor
    · rintro ⟨bytes, block, hblock, hwire⟩
      exact ⟨block, hblock, wireProposal_encodes.mp ⟨bytes, hwire⟩⟩
    · rintro ⟨block, hblock, hlen⟩
      obtain ⟨bytes, hwire⟩ :=
        (@wireProposal_encodes (wireProposal sp block)).mpr hlen
      exact ⟨bytes, block, hblock, hwire⟩
  · intro sv sv' bytes henc hdec
    rw [vote_round_trip hround hsig henc] at hdec
    obtain rfl := Except.ok.inj hdec
    exact ⟨rfl, fun key => rfl⟩
  · intro sp sp' bytes henc hdec
    rw [proposal_round_trip hround hsig henc] at hdec
    obtain rfl := Except.ok.inj hdec
    exact ⟨rfl, fun key => rfl⟩
  · intro wire bytes hwire hbad
    rw [decodeSignedVote_of_wire hwire]
    cases hvote : (voteOfWire wire : Except WireError (SignedVote M)) with
    | error e => exact ⟨e, rfl⟩
    | ok sv =>
      obtain ⟨htype, htag, hbytes, -⟩ := voteOfWire_eq_ok.mp hvote
      rw [htype, htag, hbytes] at hbad
      exact absurd hbad (by cases sv.message.voteType <;> cases sv.message.value <;>
        simp [VoteType.byte, NilOrVal.tag, NilOrVal.bytes])
  · intro wire bytes sv hwire hdec
    rw [decodeSignedVote_of_wire hwire] at hdec
    obtain ⟨-, htag, hbytes, -⟩ := voteOfWire_eq_ok.mp hdec
    exact ⟨htag.symm, hbytes.symm⟩

end

def emptyBlock : Block :=
  ⟨⟨1, "", 5, 0, 0, 0, 0, 0, 0, 0, 1000000000, ""⟩, [], []⟩

theorem emptyBlock_encodes :
    ∃ body, (Block.codec .never .never).encode emptyBlock = some body ∧ body.length < 2 ^ 32 := by
  simp [Block.codec, BlockHeader.codec, emptyBlock, Codec.prod_encode, Codec.vec_encode,
    Codec.string_encode, Codec.bytes_encode, Codec.encodeAll]

theorem gossip_round_trip_empty :
    ∃ bytes, encodeSignedProposal (Block.codec .never .never)
        (⟨⟨5, some 0, emptyBlock, none, 7⟩, (default : Bytes 64)⟩ : SignedProposal toyMalachite) = .ok bytes ∧
      decodeSignedProposal (Block.codec .never .never) bytes =
        .ok (⟨⟨5, some 0, emptyBlock, none, 7⟩, (default : Bytes 64)⟩ : SignedProposal toyMalachite) := by
  have hlaw := (gossip_round_trip toyPrimitives toy_roundsConvert toy_signaturesConvert
    (Block.codec .never .never)).2.1 ⟨⟨5, some 0, emptyBlock, none, 7⟩, (default : Bytes 64)⟩
  obtain ⟨bytes, henc⟩ := hlaw.1.mpr emptyBlock_encodes
  exact ⟨bytes, henc, hlaw.2 bytes henc⟩

end Arknet.Laws
