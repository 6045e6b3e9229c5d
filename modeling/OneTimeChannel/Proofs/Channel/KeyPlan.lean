/-
  Key plans and the keys that messages cost.

  How much key material a round needs is planned from contexts that nothing was added to, and what a
  message costs is found out by adding its payload to copies of them.  Both come down to one context and
  the length of what is added: its key is as long as its share of the plan says, for `null`, for pads and
  for hashes alike (`Context.Ready.finalKeySize_absorbed`).  A context for authentication is asked before
  it has taken in anything, which makes no difference, since on a channel it is not a pad.

  What encoding takes is read off a key source that writes down the lengths of the keys that it hands out
  (`Outlay`).  No draft is encrypted with a context that does nothing, so encoding asks for one length more
  than it takes keys, and this one is zero.
-/
import OneTimeChannel.Association.KeyPlan
import OneTimeChannel.Proofs.Channel.Configured
import OneTimeChannel.Proofs.Channel.Delivery
import OneTimeChannel.Proofs.Channel.Directions

namespace OneTimeChannel

/-! ## Shares -/

namespace KeyPlan

/-- The plan of the other end. -/
def mirrored (p : KeyPlan) : KeyPlan where
  incoming := p.outgoing
  outgoing := p.incoming
  incomingPerByte := p.outgoingPerByte
  outgoingPerByte := p.incomingPerByte

theorem ofAssociation_mirrored (a : Association) :
    ofAssociation a.mirrored = (ofAssociation a).mirrored := rfl

/-- The bytes for the message that is sent. -/
def outgoingFor (p : KeyPlan) (payload : Nat) : Nat := p.outgoing + p.outgoingPerByte * payload

/-- The bytes for the message that is received. -/
def incomingFor (p : KeyPlan) (payload : Nat) : Nat := p.incoming + p.incomingPerByte * payload

theorem bytesFor_eq (p : KeyPlan) (payload : Nat) :
    p.bytesFor payload = p.outgoingFor payload + p.incomingFor payload := by
  rw [bytesFor, outgoingFor, incomingFor, Nat.add_mul]
  omega

/-- The share of a context in a message with a payload of so many bytes. -/
def shareFor (c : Context) (payload : Nat) : Nat := fixedShare c + perByteShare c * payload

theorem outgoingFor_ofAssociation (a : Association) (payload : Nat) :
    (ofAssociation a).outgoingFor payload
      = shareFor a.authenticationOutgoing payload + shareFor a.encryptionOutgoing payload := by
  rw [outgoingFor, shareFor, shareFor, ofAssociation, Nat.add_mul]
  dsimp only
  omega

section Share

variable {c : Context} {payload : Nat}

theorem shareFor_null (h : c.algorithm = .null) : shareFor c payload = 0 := by
  rw [shareFor, fixedShare, perByteShare, Context.reusesInitKey, Context.consumesKeyPerByte,
    Context.finalKeySize, h]
  show 0 + 0 + 0 * payload = 0
  omega

theorem shareFor_pad {held : Bytes} (h : c.algorithm = .pad held) : shareFor c payload = payload := by
  rw [shareFor, fixedShare, perByteShare, Context.reusesInitKey, Context.consumesKeyPerByte,
    Context.initKeySize, h]
  show 0 + 1 * payload = payload
  omega

theorem shareFor_evaluationHash {hash : EvaluationHash} (h : c.algorithm = .evaluationHash hash) :
    shareFor c payload = hash.bytes := by
  rw [shareFor, fixedShare, perByteShare, Context.reusesInitKey, Context.consumesKeyPerByte,
    Context.finalKeySize, h]
  show 0 + hash.bytes + 0 * payload = hash.bytes
  omega

end Share

end KeyPlan

namespace Context

variable {c : Context}

open KeyPlan (shareFor)

/-- The key for some data is as long as the share of the context says. -/
theorem Ready.finalKeySize_absorbed (h : c.Ready) (data : Bytes) :
    (c.absorbed data).finalKeySize = shareFor c data.length := by
  rw [absorbed, finalKeySize]
  cases halgorithm : c.algorithm with
  | null => exact (KeyPlan.shareFor_null halgorithm).symm
  | pad held =>
    rw [KeyPlan.shareFor_pad halgorithm, h.data_eq held halgorithm]
    rfl
  | evaluationHash hash => exact (KeyPlan.shareFor_evaluationHash halgorithm).symm

/-- The key for a tag has the same length for every payload. -/
theorem Authenticates.finalKeySize_eq (h : c.Authenticates) (payload : Nat) :
    c.finalKeySize = shareFor c payload := by
  rw [finalKeySize]
  rcases h.algorithm_eq with hnull | ⟨hash, hhash⟩
  · rw [KeyPlan.shareFor_null hnull, hnull]
    rfl
  · rw [KeyPlan.shareFor_evaluationHash hhash, hhash]
    rfl

theorem algorithm_of_isNull (h : c.isNull = true) : c.algorithm = .null := by
  rw [isNull] at h
  cases halgorithm : c.algorithm with
  | null => rfl
  | pad held =>
    rw [halgorithm] at h
    cases h
  | evaluationHash hash =>
    rw [halgorithm] at h
    cases h

end Context

/-! ## What encoding asks for -/

namespace Channel

section Request

variable {K : Type} {c : Channel K} {m : Message}

/-- The lengths of the keys that encoding a message asks for before it takes one, none if the message is
    refused before that. -/
def keysRequested (c : Channel K) (m : Message) : List Nat :=
  match c.draft m with
  | .ok d => d.keyLengths
  | .error _ => []

/-- The payload of the message, as it is sent before encryption, has so many bytes. -/
def Packs (c : Channel K) (m : Message) (length : Nat) : Prop :=
  (c.draft m).map (fun d => d.payload.length) = .ok length

theorem Packs.exists_draft {length : Nat} (h : c.Packs m length) :
    ∃ d, c.draft m = .ok d ∧ d.payload.length = length := by
  rw [Packs] at h
  cases hdraft : c.draft m with
  | error failure =>
    rw [hdraft] at h
    cases h
  | ok d =>
    rw [hdraft] at h
    cases h
    exact ⟨d, rfl, rfl⟩

/-- A channel with contexts that hold no data asks for the outgoing share of its plan. -/
theorem sum_keysRequested (hauth : c.association.authenticationOutgoing.Authenticates)
    (henc : c.association.encryptionOutgoing.Ready) (hflag : m.header.has .encrypted = true)
    {length : Nat} (h : c.Packs m length) :
    (c.keysRequested m).sum = (KeyPlan.ofAssociation c.association).outgoingFor length := by
  obtain ⟨d, hdraft, rfl⟩ := h.exists_draft
  obtain ⟨authentication, encryption, payload, hdrafts, rfl⟩ := draft_eq_ok_iff.1 hdraft
  -- the copies are the contexts of the channel themselves
  obtain rfl : c.association.authenticationOutgoing = authentication :=
    Except.ok.inj ((fresh_of_ready .authenticationOutgoing hauth.ready).symm.trans
      hdrafts.authentication_eq)
  obtain rfl : c.association.encryptionOutgoing = encryption :=
    Except.ok.inj ((fresh_of_ready .encryptionOutgoing henc).symm.trans hdrafts.encryption_eq)
  have hencryption : (c.drafted m c.association.authenticationOutgoing
        c.association.encryptionOutgoing payload).encryptionKeyLength
      = KeyPlan.shareFor c.association.encryptionOutgoing payload.length := by
    rw [Draft.encryptionKeyLength, drafted, encrypts, hflag, Bool.true_and]
    cases hnull : c.association.encryptionOutgoing.isNull with
    | true => exact (KeyPlan.shareFor_null (Context.algorithm_of_isNull hnull)).symm
    | false => exact henc.finalKeySize_absorbed payload
  have hauthentication : (c.drafted m c.association.authenticationOutgoing
        c.association.encryptionOutgoing payload).authenticationKeyLength
      = KeyPlan.shareFor c.association.authenticationOutgoing payload.length :=
    hauth.finalKeySize_eq payload.length
  rw [keysRequested, hdraft, KeyPlan.outgoingFor_ofAssociation]
  dsimp only
  rw [Draft.keyLengths, hencryption, hauthentication, Nat.add_comm]
  rfl

end Request

end Channel

/-! ## What encoding takes -/

/-- A key source with a record of the lengths of the keys to send with that it handed out. -/
structure Outlay (K : Type) where
  source : K
  sent : List Nat := []

namespace Outlay

variable {K : Type} [KeySource K]

/-- Writes down the length of a key if one was handed out. -/
def note (o : Outlay K) (length : Nat) :
    Except KeyError (UInt32 × Key) × K → Except KeyError (UInt32 × Key) × Outlay K
  | (.ok key, source) => (.ok key, { source, sent := o.sent ++ [length] })
  | (.error e, source) => (.error e, { o with source })

instance : KeySource (Outlay K) where
  fetchOutgoing o length := o.note length (KeySource.fetchOutgoing o.source length)
  fetchIncoming o id length :=
    match KeySource.fetchIncoming o.source id length with
    | (r, source) => (r, { o with source })
  outgoingAvailable o := KeySource.outgoingAvailable o.source
  incomingAvailable o := KeySource.incomingAvailable o.source

/-- Encoding does not notice the record. -/
theorem respectsOutgoing_source : KeySource.RespectsOutgoing (source : Outlay K → K) where
  fetchOutgoing o length := by
    have hnote : KeySource.fetchOutgoing o length
        = o.note length (KeySource.fetchOutgoing o.source length) := rfl
    rw [hnote]
    rcases KeySource.fetchOutgoing o.source length with ⟨_ | key, source⟩ <;> rfl
  outgoingAvailable _ _ := rfl

theorem sent_of_fetchOutgoing {o o' : Outlay K} {length : Nat} {key : UInt32 × Key}
    (h : KeySource.fetchOutgoing o length = (.ok key, o')) : o'.sent = o.sent ++ [length] := by
  have hnote : KeySource.fetchOutgoing o length
      = o.note length (KeySource.fetchOutgoing o.source length) := rfl
  rw [hnote] at h
  rcases hfetch : KeySource.fetchOutgoing o.source length with ⟨_ | key', source⟩
  · rw [hfetch] at h
    cases h
  · rw [hfetch] at h
    cases h
    rfl

end Outlay

namespace Channel

variable {K L : Type} [KeySource K] [KeySource L] {c : Channel K} {m encoded : Message} {d : Draft}

/-- The lengths of the keys that encoding a message takes, in the order of their use. -/
def keysSpent (c : Channel K) (m : Message) : List Nat :=
  ((c.mapKeys fun keys => ({ source := keys } : Outlay K)).encode m).1.keys.sent

/-- A draft that is completed takes its keys, but for the empty one that nobody fetches. -/
theorem sum_sent_of_complete {keys keys' : Outlay K} (h : d.complete keys = (.ok encoded, keys')) :
    keys'.sent.sum = keys.sent.sum + d.keyLengths.sum := by
  obtain ⟨d', between, hencrypt, hauthenticate⟩ := complete_eq_ok_iff.1 h
  obtain ⟨id, key, tag, hfetch, -⟩ := authenticate_eq_ok_iff.1 hauthenticate
  rw [Outlay.sent_of_fetchOutgoing hfetch]
  rcases encrypt_eq_ok_iff.1 hencrypt with ⟨hnone, rfl, rfl⟩
    | ⟨context, id', key', hsome, hfetch', -, -, rfl⟩
  · simp [Draft.keyLengths, Draft.encryptionKeyLength, hnone]
  · rw [Outlay.sent_of_fetchOutgoing hfetch']
    simp [Draft.keyLengths, Draft.encryptionKeyLength, Draft.authenticationKeyLength, Draft.encrypted,
      hsome]

/-- What was asked for is what is taken by a message that is encoded. -/
theorem sum_keysSpent (h : (c.encode m).2 = .ok encoded) :
    (c.keysSpent m).sum = (c.keysRequested m).sum := by
  let recorded : Channel (Outlay K) := c.mapKeys fun keys => { source := keys }
  have hsame : (recorded.encode m).2 = .ok encoded := by
    have hmap := encode_mapKeys Outlay.respectsOutgoing_source recorded m
    have hsource : recorded.mapKeys Outlay.source = c := rfl
    rw [hsource] at hmap
    rwa [hmap] at h
  rcases encode_cases recorded m with ⟨failure, hencode⟩
    | ⟨d, hdraft, -, ⟨failure, keys', -, hencode⟩ | ⟨encoded', keys', hcomplete, hencode⟩⟩
  · rw [hencode] at hsame
    cases hsame
  · rw [hencode] at hsame
    cases hsame
  · have hspent : c.keysSpent m = keys'.sent := by
      show (recorded.encode m).1.keys.sent = keys'.sent
      rw [hencode]
    have hrequested : c.keysRequested m = d.keyLengths := by
      have hdraft' : c.draft m = .ok d := hdraft
      rw [keysRequested, hdraft']
    have hsum := sum_sent_of_complete hcomplete
    rw [hspent, hrequested, hsum]
    exact Nat.zero_add _

/-- Encoding the message asks for keys of so many bytes, is refused if they are missing, and takes them if
    it succeeds. -/
structure Costs (c : Channel K) (m : Message) (bytes : Nat) : Prop where
  requested : (c.keysRequested m).sum = bytes
  needed : KeySource.outgoingAvailable c.keys (c.keysRequested m) = false →
    ∃ failure, c.encode m = (c, .error failure)
  spent : ∀ encoded, (c.encode m).2 = .ok encoded → (c.keysSpent m).sum = bytes

theorem costs_sum_keysRequested (c : Channel K) (m : Message) :
    c.Costs m (c.keysRequested m).sum where
  requested := rfl
  needed h := by
    cases hdraft : c.draft m with
    | error failure => exact ⟨failure, encode_of_refused hdraft⟩
    | ok d =>
      rw [keysRequested, hdraft] at h
      exact ⟨_, encode_of_keysMissing hdraft h⟩
  spent _ h := sum_keysSpent h

end Channel

/-! ## Both directions -/

/-- No scheme of the definition has a state.  It may count blocks, which no length depends on. -/
def AssociationDefinition.Stateless (d : AssociationDefinition) : Prop :=
  ∀ slot s, Scheme.parse (d.get slot) = .ok s → s.state = []

theorem AssociationDefinition.Stateless.mirrored {d : AssociationDefinition} (hd : d.Stateless) :
    Stateless d.mirrored := by
  intro slot s hparse
  rw [Slots.get_mirrored] at hparse
  exact hd slot.opposite s hparse

namespace Channel

variable {K L : Type} {d : AssociationDefinition} {id id' : UInt16}
  {keys : K} {keys' : L} {alice : Channel K} {bob : Channel L}

/-- The contexts that a channel sends with, if it is made from schemes without a state. -/
theorem ready_of_ofDefinition (hd : d.Stateless) (h : ofDefinition id d keys = .ok alice) :
    Association.ofDefinition d = .ok alice.association
      ∧ alice.association.authenticationOutgoing.Authenticates
      ∧ alice.association.encryptionOutgoing.Ready := by
  obtain ⟨a, ha, hfit, rfl⟩ := ofDefinition_eq_ok_iff.1 h
  have hcreate := Association.ofDefinition_eq_ok_iff.1 ha
  have hconsumes : a.authenticationOutgoing.consumesKeyPerByte = false := by
    have hnone := List.find?_eq_none.1 hfit a.authenticationOutgoing (by simp)
    exact eq_false_of_ne_true hnone
  refine ⟨ha, ?_, ?_⟩
  · exact Context.authenticates_of_consumesKeyPerByte_eq
      (Context.finalized_of_create (hcreate .authenticationOutgoing)) hconsumes
  · exact Context.ready_of_create (hd .encryptionOutgoing) (hcreate .encryptionOutgoing)

variable [KeySource K] [KeySource L]

/-- What is planned for a definition is what its channels ask for, whatever they have done before, with
    whatever keys, codec and threshold.  The plan of the other end is the same with the directions
    exchanged.  If both ends encode a message that is to be encrypted, with payloads of one length as they
    are sent, then each asks for its share of the plan, and together for the bytes of a round. -/
theorem keys_as_planned (hd : d.Stateless) (halice : ofDefinition id d keys = .ok alice)
    (hbob : ofDefinition id' d.mirrored keys' = .ok bob) :
    ∃ plan, KeyPlan.ofDefinition d = .ok plan ∧ KeyPlan.ofDefinition d.mirrored = .ok plan.mirrored
      ∧ ∀ (c : Channel K) (c' : Channel L) (m m' : Message) (length : Nat),
        c.association = alice.association → c'.association = bob.association →
        m.header.has .encrypted = true → m'.header.has .encrypted = true →
        c.Packs m length → c'.Packs m' length →
        c.Costs m (plan.outgoing + plan.outgoingPerByte * length)
          ∧ c'.Costs m' (plan.incoming + plan.incomingPerByte * length)
          ∧ (c.keysRequested m).sum + (c'.keysRequested m').sum = plan.bytesFor length := by
  obtain ⟨ha, hauth, henc⟩ := ready_of_ofDefinition hd halice
  obtain ⟨hb, hauth', henc'⟩ := ready_of_ofDefinition hd.mirrored hbob
  obtain hmirrored : alice.association.mirrored = bob.association :=
    Except.ok.inj ((Association.ofDefinition_mirrored ha).symm.trans hb)
  refine ⟨KeyPlan.ofAssociation alice.association, ?_, ?_, ?_⟩
  · rw [KeyPlan.ofDefinition, ha]
    rfl
  · rw [KeyPlan.ofDefinition, hb, ← hmirrored]
    rfl
  intro c c' m m' length hc hc' hm hm' hpacks hpacks'
  rw [← hc] at hauth henc
  rw [← hc'] at hauth' henc'
  have hsum := sum_keysRequested hauth henc hm hpacks
  have hsum' := sum_keysRequested hauth' henc' hm' hpacks'
  rw [hc] at hsum
  rw [hc', ← hmirrored, KeyPlan.ofAssociation_mirrored] at hsum'
  refine ⟨?_, ?_, ?_⟩
  · have hcosts := costs_sum_keysRequested c m
    rwa [hsum] at hcosts
  · have hcosts := costs_sum_keysRequested c' m'
    rwa [hsum'] at hcosts
  · rw [hsum, hsum', KeyPlan.bytesFor_eq]
    rfl

/-- Both directions are encrypted with pads, and one is authenticated with a hash. -/
def hashedDefinition : AssociationDefinition where
  authenticationIncoming := "null"
  authenticationOutgoing := "evhash-32:00000002"
  encryptionIncoming := "xor"
  encryptionOutgoing := "xor"

theorem stateless_hashedDefinition : hashedDefinition.Stateless := by
  intro slot s hparse
  cases slot <;> cases hparse <;> rfl

/-- The end that makes tags with the hash. -/
def tagger : Channel KeyBuffer where
  id := 1
  association := {
    authenticationIncoming := { algorithm := .null }
    authenticationOutgoing := { algorithm := .evaluationHash hashByX }
    encryptionIncoming := { algorithm := .pad [] }
    encryptionOutgoing := { algorithm := .pad [] } }
  keys := .byFour

/-- The end that sends without tags. -/
def checker : Channel KeyBuffer := { tagger with association := tagger.association.mirrored }

/-- One byte, which takes ten bytes when it is sent. -/
def smallMessage : Message := (Message.ofPayload 9 [7]).withEncryption true

theorem keys_as_planned_smallMessage :
    KeyPlan.ofDefinition hashedDefinition = .ok ⟨0, 4, 1, 1⟩
      ∧ tagger.Costs smallMessage 14 ∧ checker.Costs smallMessage 10 := by
  have htagger : ofDefinition 1 hashedDefinition KeyBuffer.byFour = .ok tagger := by rfl
  have hchecker : ofDefinition 1 hashedDefinition.mirrored KeyBuffer.byFour = .ok checker := by rfl
  obtain ⟨plan, hplan, -, hcosts⟩ := keys_as_planned stateless_hashedDefinition htagger hchecker
  have hpacks : tagger.Packs smallMessage 10 := by
    show (tagger.draft smallMessage).map (fun d => d.payload.length) = .ok 10
    decide +kernel
  have hpacks' : checker.Packs smallMessage 10 := by
    show (checker.draft smallMessage).map (fun d => d.payload.length) = .ok 10
    decide +kernel
  obtain rfl : ⟨0, 4, 1, 1⟩ = plan := Except.ok.inj hplan
  obtain ⟨hsend, hreceive, -⟩ :=
    hcosts tagger checker smallMessage smallMessage 10 rfl rfl rfl rfl hpacks hpacks'
  exact ⟨hplan, hsend, hreceive⟩

end Channel

end OneTimeChannel
