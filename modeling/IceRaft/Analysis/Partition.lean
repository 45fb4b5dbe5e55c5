import IceRaft.Analysis.LeaderHint
import IceRaft.Analysis.Progress
import IceRaft.Interface.Conditions

/-!
# The minority side of a partition

A node that gets responses only from peers that make no quorum with it does nothing that
others rely on: if it does not lead it is never elected, and if it leads it commits and
confirms nothing beyond what it and the others held before.  No other storage, network or
timing helps it.
-/

set_option autoImplicit false

namespace IceRaft

open Cluster

/-- The input asks for a read index. -/
def Input.readsIndex : Input → Bool
  | .message (.readIndex _) => true
  | _ => false

/-- Node `i` gets responses from `S` only. -/
def HearsOnly {σ : Type} (i : NodeId) (S : Finset NodeId) : Condition σ :=
  fun cfg _ input _ => cfg.id = i → ∀ peer ∈ input.responder?, peer ∈ S

/-- Node `i` is not asked for a read index; no code of the repository sends that message. -/
def NoReadIndexAt {σ : Type} (i : NodeId) : Condition σ :=
  fun cfg _ input _ => cfg.id = i → input.readsIndex = false

instance {σ : Type} (i : NodeId) (S : Finset NodeId) (cfg : RaftConfig) (n : RaftNodeInner σ)
    (input : Input) (crashAt : Option ℕ) : Decidable (HearsOnly i S cfg n input crashAt) := by
  unfold HearsOnly
  infer_instance

instance {σ : Type} (i : NodeId) (cfg : RaftConfig) (n : RaftNodeInner σ) (input : Input)
    (crashAt : Option ℕ) : Decidable (NoReadIndexAt i cfg n input crashAt) := by
  unfold NoReadIndexAt
  infer_instance

variable {cc : ClusterConfig} {fault : RaftError → Prop} {cfg : RaftConfig} {w : Record}
  {i : NodeId} {S : Finset NodeId} {m m' : Volatile} {input : Input} {o : Option Effect}

/-- A report is the response of a peer. -/
theorem responder_of_report {peer : NodeId} {f : Progress → Progress}
    (h : input.report? = some (peer, f)) : input.responder? = some peer := by
  unfold Input.report? at h
  split at h
  · cases h
    rfl
  · cases h
    rfl
  · cases h

/-- The peers of `S` and the node itself are no quorum. -/
def Minority (cfg : RaftConfig) (S : Finset NodeId) : Prop := S.card + 1 < cfg.quorum

instance (cfg : RaftConfig) (S : Finset NodeId) : Decidable (Minority cfg S) :=
  inferInstanceAs (Decidable (_ < _))

/-- A candidate has votes from `S` and itself only. -/
def Outvoted (i : NodeId) (S : Finset NodeId) (sm : RaftStateMachine) : Prop :=
  sm.role = .candidate → sm.votesReceived ⊆ insert i S

/-- Votes of a minority elect nobody. -/
theorem Outvoted.not_quorum {sm : RaftStateMachine} (h : Outvoted i S sm)
    (hminor : Minority cfg S) (hrole : sm.role = .candidate) :
    ¬ cfg.quorum ≤ sm.votesReceived.card := by
  have hle := Finset.card_le_card (h hrole)
  have hinsert := Finset.card_insert_le i S
  unfold Minority at hminor
  omega

/-- Every move of the node keeps its votes within the minority. -/
theorem Outvoted.act (hid : cfg.id = i) (h : Outvoted i S m.sm)
    (hhears : ∀ peer ∈ input.responder?, peer ∈ S) (hact : Act fault cfg input m o m') :
    Outvoted i S m'.sm := by
  cases hact with
  | stepDown hinput hlt => exact nofun
  | stand hinput hrole =>
    intro _ v hv
    rw [Finset.mem_singleton.mp hv, hid]
    exact Finset.mem_insert_self i S
  | @count peer resp hinput hgranted hterm hrole =>
    have hpeer : peer ∈ S := by
      apply hhears
      rw [hinput]
      rfl
    exact fun hcand => Finset.insert_subset (Finset.mem_insert_of_mem hpeer) (h hrole)
  | lead last hrole hquorum => exact nofun
  | report hreport hrole =>
    obtain ⟨progress, heq⟩ := NodeTurn.updateProgress_eq _ _ _
    rw [heq]
    exact h
  | _ => exact h

/-! ## A node that does not lead -/

/-- The effects that only a leader has. -/
def Effect.ofLeader : Effect → Prop
  | .becameLeader _ | .accepted _ _ | .applied _ => True
  | .spawned (.appendEntries _ _ _) | .spawned (.installSnapshot _ _ _) => True
  | _ => False

/-- What holds of a node that never had a majority behind it. -/
structure Powerless (i : NodeId) (S : Finset NodeId) (w : Record) (m : Volatile) : Prop where
  role : m.sm.role ≠ .leader
  votes : Outvoted i S m.sm
  shown : ∀ e, w i e → ¬ e.ofLeader

/-- An act of a node that hears of a minority only makes no leader of it. -/
theorem Powerless.act (hid : cfg.id = i) (hminor : Minority cfg S) (h : Powerless i S w m)
    (hhears : ∀ peer ∈ input.responder?, peer ∈ S) (hact : Act fault cfg input m o m') :
    Powerless i S (w.add i o.toList) m' := by
  have hvotes := h.votes.act hid hhears hact
  have hshow {e : Effect} (he : ¬ e.ofLeader) : ∀ e', w.add i [e] i e' → ¬ e'.ofLeader := by
    intro e' he'
    rcases Record.add_self.mp he' with hold | hnew
    · exact h.shown e' hold
    · rw [List.mem_singleton.mp hnew]
      exact he
  have hquiet : ∀ e, w.add i [] i e → ¬ e.ofLeader := by
    rw [Record.add_nil]
    exact h.shown
  cases hact with
  | emit hshown =>
    refine ⟨h.role, hvotes, hshow ?_⟩
    cases hshown with
    | send hpeer hrole => exact absurd hrole h.role
    | ship hpeer hrole => exact absurd hrole h.role
    | _ => exact id
  | lead last hrole hquorum => exact absurd hquorum (h.votes.not_quorum hminor hrole)
  | stepDown hinput hlt => exact ⟨nofun, hvotes, hquiet⟩
  | stand hinput hrole => exact ⟨nofun, hvotes, hquiet⟩
  | accept hinput hrole hterm => exact absurd hrole h.role
  | apply entry hinput hrole => exact absurd hrole h.role
  | report hreport hrole => exact absurd hrole h.role
  | _ => exact ⟨h.role, hvotes, hquiet⟩

/-- The chronicle of a node that never has a majority behind it. -/
def minorityChronicle (cc : ClusterConfig) (fault : RaftError → Prop) (i : NodeId)
    (S : Finset NodeId) (hminor : Minority (cc.config i) S) : Chronicle cc fault where
  node w j m := j = i → Powerless i S w m
  packet _ _ := True
  allows j _ input := j = i → ∀ peer ∈ input.responder?, peer ∈ S
  allows_act hallow _ := hallow
  node_add := by
    rintro w j k es m hkj h rfl
    obtain ⟨hrole, hvotes, hshown⟩ := h rfl
    refine ⟨hrole, hvotes, ?_⟩
    rw [Record.add_of_ne hkj]
    exact hshown
  packet_add _ := trivial
  packet_orphan _ := trivial
  start _ _ _ _ _ := ⟨nofun, nofun, fun _ he => he.elim⟩
  crash h _ _ _ heq := ⟨nofun, nofun, (h heq).shown⟩
  act := by
    rintro w j asker input m o m' hj - hallow hact h
    refine ⟨?_, fun _ _ _ _ => trivial⟩
    rintro rfl
    exact (h rfl).act (cc.config_id j hj) hminor (hallow rfl) hact

variable {σ : Type} [Storage σ]

omit [Storage σ] in
/-- The condition of a run is what the chronicle allows. -/
theorem allowed_of_hearsOnly {c : Cluster σ} {e : Event} (h : c.Meets cc (HearsOnly i S) e)
    {j : NodeId} {input : Input} (hin : c.input? cc e.action = some (j, input)) :
    j = i → ∀ peer ∈ input.responder?, peer ∈ S := by
  rintro rfl
  exact h.of_input hin (cc.config_id j (mem_of_input hin))

/-- **A minority elects nobody.**  Over any storage and with any crashes, a node that gets
responses only from peers that make no quorum with it never leads, and so it never accepts a
proposal, sends an entry, a heartbeat or a snapshot, or applies anything.
SRCLINE: iceraft-node/src/node.rs:268-286, 471-479, 507-572, 673-695 -/
theorem minority_powerless (cc : ClusterConfig) (stores : NodeId → σ) (es : List Event)
    (i : NodeId) (S : Finset NodeId) (hi : i ∈ cc.members) (hminor : Minority (cc.config i) S)
    (h : Within cc (HearsOnly i S) (init stores) es) :
    ((exec cc (init stores) es).sm i).role ≠ .leader ∧
      ∀ e ∈ ((exec cc (init stores) es).proc i).history, ¬ e.ofLeader := by
  obtain ⟨w, -, hw⟩ := Chronicle.holds_run
    ((minorityChronicle cc (StorageFault σ) i S hminor).holds_init stores)
    (h.mono fun c e hok j input hin => allowed_of_hearsOnly hok hin)
  have hnode : Powerless i S w ((exec cc (init stores) es).proc i).node.volatile :=
    hw.node i hi rfl
  refine ⟨hnode.role, fun e he => ?_⟩
  rcases (hw.shown i hi).2 e he with hshown | ⟨commit, rfl⟩
  · exact hnode.shown e hshown
  · exact id

/-- Node 1 stands three times, crashes in the second of them, and hears of nobody. -/
def lonelyRun : List Event :=
  [⟨.timer 1 true false, none⟩, ⟨.lose 0, none⟩, ⟨.timer 1 true false, some 1⟩,
    ⟨.timer 1 true true, none⟩]

/-- It never leads, and shows nothing of a leader. -/
theorem minority_powerless_lonelyRun :
    ((exec trio (init fun _ => MemStorage.new) lonelyRun).sm 1).currentTerm = 3 ∧
      ((exec trio (init fun _ => MemStorage.new) lonelyRun).sm 1).role ≠ .leader ∧
      ∀ e ∈ ((exec trio (init fun _ => MemStorage.new) lonelyRun).proc 1).history,
        ¬ e.ofLeader :=
  ⟨by decide +kernel, minority_powerless trio (fun _ => MemStorage.new) lonelyRun 1 ∅
    (by decide) (by decide) (by decide +kernel)⟩

/-! ## A leader that is cut off -/

/-- No term has two leaders, by the record. -/
def Record.OneLeader (cc : ClusterConfig) (w : Record) : Prop :=
  ∀ j k term, Led cc w j term → Led cc w k term → j = k

/-- A leader meets no request of another leader of its term. -/
theorem Hinted.no_rival (h : Hinted cc fault w i m) (hone : w.OneLeader cc)
    {asker : Option (NodeId × RpcTask)} (hcause : Cause (FromLeader cc w) i asker input)
    {l : NodeId} (hterm : input.term? = some m.sm.currentTerm)
    (hleader : input.leader? = some l) : m.sm.role ≠ .leader := by
  intro hrole
  have hself := h.leads hrole
  obtain ⟨hnamed, hne⟩ := hcause.names hterm hleader
  exact hne hself.pos (hone _ _ _ hself (hnamed.led_of_pos hself.pos))

/-- What holds of a leader that is cut off with `S`, when what the others hold is within `B`
and `before` is what it has shown so far. -/
structure CutOff (i : NodeId) (S : Finset NodeId) (B : ℕ) (before : Effect → Prop) (w : Record)
    (m : Volatile) : Prop where
  votes : Outvoted i S m.sm
  commit : m.sm.role = .leader → m.sm.commitIndex ≤ B
  others : m.sm.role = .leader → ∀ peer pr, m.sm.progress.lookup peer = some pr → peer ∉ S →
    pr.matchIndex ≤ B
  told : ∀ tx k, w i (.answered tx (.ok k)) → before (.answered tx (.ok k)) ∨ k ≤ B

variable {B : ℕ} {before : Effect → Prop}

/-- What a quorum holds is within the bound. -/
theorem CutOff.le_of_quorum (h : CutOff i S B before w m) (hminor : Minority cfg S)
    (hrole : m.sm.role = .leader) {index : ℕ} (hquorum : cfg.quorum ≤ m.sm.replicated index) :
    index ≤ B := by
  by_contra hlt
  have hsub : m.sm.holders index ⊆ S := by
    intro peer hpeer
    obtain ⟨pr, hpr, hle⟩ := RaftStateMachine.mem_holders_iff.mp hpeer
    by_contra hout
    exact hlt (Nat.le_trans hle (h.others hrole peer pr hpr hout))
  have hcard := Finset.card_le_card hsub
  rw [RaftStateMachine.replicated_eq] at hquorum
  unfold Minority at hminor
  omega

/-- An act of a leader that hears of a minority only commits nothing. -/
theorem CutOff.act (hid : cfg.id = i) (hminor : Minority cfg S)
    (h : CutOff i S B before w m) (hhint : Hinted cc fault w i m) (hone : w.OneLeader cc)
    {asker : Option (NodeId × RpcTask)} (hcause : Cause (FromLeader cc w) i asker input)
    (hhears : ∀ peer ∈ input.responder?, peer ∈ S) (hread : input.readsIndex = false)
    (hact : Act fault cfg input m o m') : CutOff i S B before (w.add i o.toList) m' := by
  have hvotes := h.votes.act hid hhears hact
  have hshow {e : Effect} (he : ∀ tx k, e = .answered tx (.ok k) → k ≤ B) :
      ∀ tx k, w.add i [e] i (.answered tx (.ok k)) → before (.answered tx (.ok k)) ∨ k ≤ B := by
    intro tx k hw
    rcases Record.add_self.mp hw with hold | hnew
    · exact h.told tx k hold
    · exact .inr (he tx k (List.mem_singleton.mp hnew).symm)
  have hquiet : ∀ tx k, w.add i [] i (.answered tx (.ok k)) →
      before (.answered tx (.ok k)) ∨ k ≤ B := by
    rw [Record.add_nil]
    exact h.told
  cases hact with
  | emit hshown =>
    refine ⟨hvotes, h.commit, h.others, hshow ?_⟩
    rintro tx k rfl
    cases hshown with
    | confirm hwait hrole hle => exact Nat.le_trans hle (h.commit hrole)
    | readIndex hinput =>
      rw [hinput] at hread
      cases hread
  | stepDown hinput hlt => exact ⟨hvotes, nofun, nofun, hquiet⟩
  | stand hinput hrole => exact ⟨hvotes, nofun, nofun, hquiet⟩
  | @follow req commit hinput hterm hlt hle =>
    subst hinput
    have hno := hhint.no_rival hone hcause (congrArg some hterm) rfl
    exact ⟨hvotes, fun hrole => absurd hrole hno, fun hrole => absurd hrole hno, hquiet⟩
  | install hinput hterm =>
    subst hinput
    have hno := hhint.no_rival hone hcause (congrArg some hterm) rfl
    exact ⟨hvotes, fun hrole => absurd hrole hno, fun hrole => absurd hrole hno, hquiet⟩
  | lead last hrole hquorum => exact absurd hquorum (h.votes.not_quorum hminor hrole)
  | @report peer f hreport hrole =>
    refine ⟨hvotes, fun _ => ?_, fun _ peer' pr hpr hout => ?_, hquiet⟩
    · obtain ⟨progress, heq⟩ := NodeTurn.updateProgress_eq peer f m.sm
      rw [heq]
      exact h.commit hrole
    · rcases NodeTurn.updateProgress_lookup hpr with hold | ⟨rfl, -⟩
      · exact h.others hrole peer' pr hold hout
      · exact absurd (hhears peer' (responder_of_report hreport)) hout
  | commit index hrole hlt hquorum =>
    exact ⟨hvotes, fun _ => h.le_of_quorum hminor hrole hquorum, h.others, hquiet⟩
  | accept hinput hrole hterm => exact ⟨hvotes, h.commit, h.others, hshow nofun⟩
  | apply entry hinput hrole => exact ⟨hvotes, h.commit, h.others, hshow nofun⟩
  | _ => exact ⟨hvotes, h.commit, h.others, hquiet⟩

/-- One leader a term at the end is one a term before. -/
theorem Record.OneLeader.of_add {j : NodeId} {es : List Effect}
    (h : (w.add j es).OneLeader cc) : w.OneLeader cc :=
  fun _ _ term hled hled' => h _ _ term hled.add hled'.add

/-- The chronicle of a leader that is cut off, as long as no term has two leaders. -/
def cutOffChronicle (cc : ClusterConfig) (fault : RaftError → Prop) (i : NodeId)
    (S : Finset NodeId) (hminor : Minority (cc.config i) S) (B : ℕ) (before : Effect → Prop) :
    Chronicle cc fault where
  node w j m := Hinted cc fault w j m ∧ (j = i → w.OneLeader cc → CutOff i S B before w m)
  packet := FromLeader cc
  allows j _ input := j = i → (∀ peer ∈ input.responder?, peer ∈ S) ∧ input.readsIndex = false
  allows_act hallow _ := hallow
  node_add := by
    rintro w j k es m hkj ⟨hhint, hcut⟩
    refine ⟨(leaderChronicle cc fault).node_add hkj hhint, ?_⟩
    rintro rfl hone
    obtain ⟨hvotes, hcommit, hothers, htold⟩ := hcut rfl hone.of_add
    refine ⟨hvotes, hcommit, hothers, ?_⟩
    rw [Record.add_of_ne hkj]
    exact htold
  packet_add := FromLeader.add
  packet_orphan := (leaderChronicle cc fault).packet_orphan
  start j term vote commit :=
    ⟨(leaderChronicle cc fault).start j term vote commit,
      fun _ _ => ⟨nofun, nofun, nofun, fun _ _ he => he.elim⟩⟩
  crash h term vote commit :=
    ⟨(leaderChronicle cc fault).crash h.1 term vote commit,
      fun heq hone => ⟨nofun, nofun, nofun, (h.2 heq hone).told⟩⟩
  act := by
    rintro w j asker input m o m' hj hcause hallow hact ⟨hhint, hcut⟩
    obtain ⟨hhint', hp⟩ := (leaderChronicle cc fault).act hj hcause trivial hact hhint
    refine ⟨⟨hhint', ?_⟩, hp⟩
    rintro rfl hone
    obtain ⟨hhears, hread⟩ := hallow rfl
    exact (hcut rfl hone.of_add).act (cc.config_id j hj) hminor hhint hone.of_add hcause hhears
      hread hact

omit [Storage σ] in
/-- The record has one leader a term when the histories have. -/
theorem oneLeader_of_unique {c : Cluster σ} {w : Record}
    (hshown : ∀ i ∈ cc.members, Chronicle.Matches w i (c.proc i).history)
    (hunique : c.UniqueLeaders cc) : w.OneLeader cc := by
  intro j k term hled hled'
  apply hunique j hled.mem k hled'.mem term
  · exact mem_leaderships.mpr ((hshown j hled.mem).1 _ hled.shown)
  · exact mem_leaderships.mpr ((hshown k hled'.mem).1 _ hled'.shown)

/-- **A leader that is cut off confirms nothing new.**  Over any storage and with any crashes,
take a leader from the moment on at which it gets responses only from peers that make no quorum
with it and no ReadIndex message, and let `B` bound what it has committed and what it knows the
other peers to hold.  Then it answers no proposal beyond `B`, and commits no index beyond `B` while
it leads.
SRCLINE: iceraft-node/src/node.rs:507-558, 673-801 -/
theorem cut_off_leader (cc : ClusterConfig) (stores : NodeId → σ) (es es' : List Event)
    (i : NodeId) (S : Finset NodeId) (B : ℕ) (hi : i ∈ cc.members)
    (hminor : Minority (cc.config i) S)
    (hunique : (exec cc (init stores) (es ++ es')).UniqueLeaders cc)
    (hlead : ((exec cc (init stores) es).sm i).role = .leader)
    (hcommit : ((exec cc (init stores) es).sm i).commitIndex ≤ B)
    (hothers : ∀ e ∈ ((exec cc (init stores) es).sm i).progress.entries, e.1 ∉ S →
      e.2.matchIndex ≤ B)
    (h : Within cc ((HearsOnly i S).and (NoReadIndexAt i)) (exec cc (init stores) es) es') :
    (∀ q ∈ answers ((exec cc (init stores) (es ++ es')).proc i).history, B < q.2 →
      q ∈ answers ((exec cc (init stores) es).proc i).history) ∧
    (((exec cc (init stores) (es ++ es')).sm i).role = .leader →
      ((exec cc (init stores) (es ++ es')).sm i).commitIndex ≤ B) := by
  have happend : exec cc (init stores) (es ++ es') =
      exec cc (exec cc (init stores) es) es' := Runs.exec_append _ _ _
  rw [happend] at hunique ⊢
  obtain ⟨w, hw⟩ := leaderChronicle_exec cc stores es
  generalize exec cc (init stores) es = c at *
  -- at the cut everything it has shown counts as shown before
  have hcut : (cutOffChronicle cc (StorageFault σ) i S hminor B (· ∈ (c.proc i).history)).Holds
      c w := by
    refine ⟨hw.shown, fun j hj => ⟨hw.node j hj, ?_⟩, hw.packet⟩
    rintro rfl -
    refine ⟨fun hcand => ?_, fun _ => hcommit, fun _ peer pr hpr hout => ?_, fun tx k hk => ?_⟩
    · have hrole : (c.proc j).node.volatile.sm.role = .leader := hlead
      rw [hrole] at hcand
      cases hcand
    · exact hothers ⟨peer, pr⟩ (AList.mem_lookup_iff.mp hpr) hout
    · exact .inl ((hw.shown j hj).1 _ hk)
  have hallow : Runs.Within (Cluster.step cc) (cutOffChronicle cc (StorageFault σ) i S hminor B
      (· ∈ (c.proc i).history)).Allowed c es' := by
    refine h.mono ?_
    intro c' e hok j input hin
    refine fun hji => ⟨allowed_of_hearsOnly (hok.mono fun _ _ _ _ hs => hs.1) hin hji, ?_⟩
    subst hji
    exact (hok.of_input hin).2 (cc.config_id j (mem_of_input hin))
  obtain ⟨w', -, hw'⟩ := Chronicle.holds_run hcut hallow
  have hend := (hw'.node i hi).2 rfl (oneLeader_of_unique hw'.shown hunique)
  refine ⟨fun q hq hlt => ?_, hend.commit⟩
  rcases (hw'.shown i hi).2 _ (mem_answers.mp hq) with hshown | ⟨commit, hmark⟩
  · exact mem_answers.mpr ((hend.told _ _ hshown).resolve_right (Nat.not_le_of_lt hlt))
  · cases hmark

/-- Node 1, which leads, takes two proposals and sends them in vain. -/
def cutOffRun : List Event :=
  [⟨.client 1 (.propose [7]), none⟩, ⟨.client 1 (.propose [8]), none⟩,
    ⟨.timer 1 false true, none⟩, ⟨.timer 1 true true, none⟩]

/-- The two proposals are in the log of node 1 and stay uncommitted. -/
theorem cut_off_leader_cutOffRun :
    ((exec trio (init fun _ => MemStorage.new) (wonRun ++ cutOffRun)).store 1).lastIndex = 2 ∧
      ((exec trio (init fun _ => MemStorage.new) (wonRun ++ cutOffRun)).sm 1).commitIndex ≤ 0 :=
  ⟨by decide +kernel, (cut_off_leader trio (fun _ => MemStorage.new) wonRun cutOffRun 1 ∅ 0
    (by decide) (by decide) (by decide +kernel) (by decide +kernel) (by decide +kernel)
    (by decide +kernel) (by decide +kernel)).2 (by decide +kernel)⟩

end IceRaft
