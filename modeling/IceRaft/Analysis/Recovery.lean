import IceRaft.Analysis.Failover
import IceRaft.Analysis.LogMatching
import IceRaft.Analysis.Rounds
import IceRaft.Analysis.TermOrder
import IceRaft.Analysis.WriteOrder

/-!
# A quorum without a leader goes on answering

After its election the new leader takes a proposal, brings the logs of the quorum up to its own
round by round, and commits and answers with one more heartbeat.  All of it is by timeouts of the
quorum, the one proposal, and packets within the quorum.
-/

set_option autoImplicit false

namespace IceRaft

open MemStorage Cluster NodeTurn

/-- The nodes of `Q` run, no other has moved, and `i` leads with the log of `s`.  Who proposed
`entry` waits for it or has the answer, and how `i` and another node of `Q` stand is as `R`
says. -/
structure Serving (c₀ : Cluster MemStorage) (Q : Finset NodeId) (i : NodeId) (s : MemStorage)
    (T : ℕ) (tx : Sender) (entry : LogEntry)
    (R : NodeId → RaftNodeInner MemStorage × RaftNodeInner MemStorage → Prop)
    (c : Cluster MemStorage) : Prop where
  outside : ∀ k, k ∉ Q → c.proc k = c₀.proc k
  looping : ∀ j ∈ Q, (c.proc j).looping = true
  heads : Heads s T (c.proc i).node
  accepted : .accepted tx entry ∈ (c.proc i).history
  awaited : (entry.index, tx) ∈ (c.proc i).node.pending ∨
    .answered tx (.ok entry.index) ∈ (c.proc i).history
  peers : ∀ k ∈ Q, k ≠ i → R k ((c.proc i).node, (c.proc k).node)

section

variable {cc : ClusterConfig} {c₀ c d : Cluster MemStorage} {Q : Finset NodeId} {i j : NodeId}
  {s : MemStorage} {T : ℕ} {tx : Sender} {entry : LogEntry} {input : Input}
  {asker : Option (NodeId × RpcTask)} {gone : Option Packet} {own : Action → Prop} {data : Bytes}
  {R R' P : NodeId → RaftNodeInner MemStorage × RaftNodeInner MemStorage → Prop}

/-- No activation but a shutdown ends an event loop. -/
theorem Cluster.Activated.looping (hd : Activated cc c i input asker gone d)
    (hinput : input ≠ .message .shutdown) (k : NodeId) (h : (c.proc k).looping = true) :
    (d.proc k).looping = true := by
  by_cases hk : k = i
  · subst hk
    rw [hd.proc]
    show ((c.proc k).looping && !decide (input = .message .shutdown)) = true
    rw [h, decide_eq_false hinput]
    rfl
  · rw [hd.others k hk]
    exact h

/-- What is asked of the followers may be weakened. -/
theorem Serving.mono (h : Serving c₀ Q i s T tx entry R c)
    (himp : ∀ k ∈ Q, k ≠ i → ∀ pair, R k pair → R' k pair) :
    Serving c₀ Q i s T tx entry R' c :=
  ⟨h.outside, h.looping, h.heads, h.accepted, h.awaited,
    fun k hk hne => himp k hk hne _ (h.peers k hk hne)⟩

/-- The leader takes a turn. -/
theorem Serving.leads (h : Serving c₀ Q i s T tx entry R c)
    (hd : Activated cc c i input asker gone d) (hi : i ∈ Q) (hinput : input ≠ .message .shutdown)
    (hheads : Heads s T ((c.proc i).turn (cc.config i) input).node)
    (hwaits : ∀ w ∈ (c.proc i).node.pending,
      w ∈ ((c.proc i).turn (cc.config i) input).node.pending ∨
        Effect.answered w.2 (.ok w.1) ∈ ((c.proc i).turn (cc.config i) input).effects)
    (hpeers : ∀ k ∈ Q, k ≠ i → R k ((c.proc i).node, (c.proc k).node) →
      R' k (((c.proc i).turn (cc.config i) input).node, (c.proc k).node)) :
    Serving c₀ Q i s T tx entry R' d where
  outside k hk := (hd.others k fun heq => hk (heq ▸ hi)).trans (h.outside k hk)
  looping j hj := hd.looping hinput j (h.looping j hj)
  heads := by
    rw [hd.node]
    exact hheads
  accepted := by
    rw [hd.proc]
    exact List.mem_append_left _ h.accepted
  awaited := by
    rw [hd.proc]
    rcases h.awaited with hwait | htold
    · exact (hwaits _ hwait).imp_right fun hnow => List.mem_append_right _ hnow
    · exact .inr (List.mem_append_left _ htold)
  peers k hk hne := by
    rw [hd.node, hd.others k hne]
    exact hpeers k hk hne (h.peers k hk hne)

/-- A follower takes a turn. -/
theorem Serving.follows (h : Serving c₀ Q i s T tx entry R c)
    (hd : Activated cc c j input asker gone d) (hj : j ∈ Q) (hne : j ≠ i)
    (hinput : input ≠ .message .shutdown) :
    Serving c₀ Q i s T tx entry (fun k pair => k ≠ j → R k pair) d where
  outside k hk := (hd.others k fun heq => hk (heq ▸ hj)).trans (h.outside k hk)
  looping k hk := hd.looping hinput k (h.looping k hk)
  heads := by
    rw [hd.others i hne.symm]
    exact h.heads
  accepted := by
    rw [hd.others i hne.symm]
    exact h.accepted
  awaited := by
    rw [hd.others i hne.symm]
    exact h.awaited
  peers k hk hki hkj := by
    rw [hd.others i hne.symm, hd.others k hkj]
    exact h.peers k hk hki

/-- How two nodes stand does not depend on what else the leader knows. -/
abbrev SeesPeer (s : MemStorage) (T : ℕ)
    (R : NodeId → RaftNodeInner MemStorage × RaftNodeInner MemStorage → Prop) : Prop :=
  ∀ k L L' F, (∀ pr, Leading s T k pr L → Leading s T k pr L') → R k (L, F) → R k (L', F)

/-- A follower handles a request. -/
theorem Cluster.can_append {last : ℕ} {req : AppendEntriesRequest} {resp : AppendEntriesResponse}
    (h : .request i true (.appendEntries j last req) ∈ c.net) (hQ : Q ⊆ cc.members) (hi : i ∈ Q)
    (hj : j ∈ Q)
    (hresp : (NodeTurn.onAppendEntries req (Turn.start (c.proc j).node)).1 = .ok resp) :
    Can cc Q own (fun d => (∃ asker gone, Activated cc c j (.appendEntries req) asker gone d) ∧
      (d.proc j).node = (NodeTurn.onAppendEntries req (Turn.start (c.proc j).node)).2.node ∧
      .response i (.appendResponse j last resp) ∈ d.net) c := by
  refine (can_ask h hQ hi hj).mono ?_
  intro d hd
  have hact : Activated cc c j (.appendEntries req) _ _ d := hd
  have hturn : (c.proc j).turn (cc.config j) (.appendEntries req) =
      NodeTurn.effect (.replied (.appendEntries req (.ok resp)))
        (NodeTurn.onAppendEntries req (Turn.start (c.proc j).node)).2 := by
    rw [← hresp]
    rfl
  refine ⟨⟨_, _, hact⟩, ?_, hact.sent (.replied (.appendEntries req (.ok resp))) ?_ _ rfl⟩
  · rw [hact.node, hturn]
    rfl
  · rw [hturn, Turn.emit_effects]
    exact List.mem_append_right _ (List.mem_singleton_self _)

/-- A round with one of the followers. -/
theorem Serving.round (h : Serving c₀ Q i s T tx entry R c) (hQ : Q ⊆ cc.members) (hi : i ∈ Q)
    (hj : j ∈ Q) (hne : j ≠ i) (hR : SeesPeer s T R)
    (hround : Rounds (cc.config i) j T (P j) (c.proc i).node (c.proc j).node) :
    Can cc Q (Upkeep Q i data) (Serving c₀ Q i s T tx entry fun k pair =>
      (k = j → P k pair) ∧ (k ≠ j → R k pair)) c := by
  obtain ⟨last, req, resp, hsent, hresp, hterm, hP⟩ := hround
  refine (can_timer (.inr (.inl rfl)) (hQ hi) (h.looping i hi)).bind ?_
  intro d₁ hd₁
  obtain ⟨hsame, heffects, hwaits⟩ := heartbeat_keeps (cc.config i) h.heads.role
  have h₁ : Serving c₀ Q i s T tx entry R d₁ := by
    refine h.leads hd₁ hi (by intro heq; cases heq) (h.heads.same hsame) hwaits ?_
    intro k hk hki hk'
    exact hR k _ _ _ (fun pr hpr => hpr.same hsame) hk'
  have hrequest := hd₁.sent _ (heffects hsent) _ rfl
  have hproc : d₁.proc j = c.proc j := hd₁.others j hne
  rw [← hproc] at hresp hP
  refine (can_append hrequest hQ hi hj hresp).bind ?_
  rintro d₂ ⟨⟨asker, gone, hd₂⟩, hnode, hreply⟩
  have h₂ := h₁.follows hd₂ hj hne (by intro heq; cases heq)
  have hsame₂ : SameChart (c.proc i).node (d₂.proc i).node := by
    rw [hd₂.others i hne.symm, hd₁.node]
    exact hsame
  refine (can_answer hreply hQ hi hj rfl (h₂.looping i hi)).mono ?_
  intro d₃ hd₃
  obtain ⟨hreport, hwaits'⟩ := report_keeps (cc.config i) h₂.heads j hterm
  refine h₂.leads hd₃ hi (by intro heq; cases heq) ((h₂.heads.reported j _).same hreport)
    hwaits' ?_
  intro k hk hki hk'
  refine ⟨?_, ?_⟩
  · rintro rfl
    rw [hnode]
    exact hP _ _ hsame₂ hreport
  · intro hkj
    exact hR k _ _ _ (fun pr hpr => (hpr.elsewhere _ hkj).same hreport) (hk' hkj)

/-- A follower on its way to the log of the leader, or there when it is among `served`. -/
def Behind (c₀ : Cluster MemStorage) (s : MemStorage) (T : ℕ) (served : List NodeId) (k : NodeId)
    (pair : RaftNodeInner MemStorage × RaftNodeInner MemStorage) : Prop :=
  ∃ count, Pace s (c₀.store k) T k count pair ∧ (k ∈ served → count = 0)

variable {served : List NodeId} {k : NodeId}
  {pair : RaftNodeInner MemStorage × RaftNodeInner MemStorage}

/-- Whether a follower is on its way is up to its log and the leader's view of it. -/
theorem Behind.sees : SeesPeer s T (Behind c₀ s T served) := by
  rintro k L L' F hlead ⟨count, hpace, hdone⟩
  exact ⟨count, hpace.sees hlead, hdone⟩

/-- A follower that is served has the whole log of the leader. -/
theorem Behind.matched (h : Behind c₀ s T served k pair) (hk : k ∈ served) :
    Matched s T k s.lastIndex pair := by
  obtain ⟨count, hpace, hdone⟩ := h
  have hzero := hdone hk
  cases hpace with
  | probing h hpos hle => omega
  | @matched m _ h =>
    have hlast := h.last
    obtain rfl : m = s.lastIndex := by omega
    exact h

/-- A follower that has the log is on no way any more. -/
theorem Behind.of_matched (h : Matched s T k s.lastIndex pair) : Behind c₀ s T served k pair :=
  ⟨_, .matched h, fun _ => Nat.sub_self _⟩

/-- To serve another follower leaves this one where it is. -/
theorem Behind.concat (h : Behind c₀ s T served k pair) (hne : k ≠ j) :
    Behind c₀ s T (served ++ [j]) k pair := by
  obtain ⟨count, hpace, hdone⟩ := h
  refine ⟨count, hpace, ?_⟩
  intro hk
  rcases List.mem_append.mp hk with hold | hlast
  · exact hdone hold
  · exact absurd (List.mem_singleton.mp hlast) hne

/-- Round by round a follower comes to the log of the leader. -/
theorem Serving.serve (h : Serving c₀ Q i s T tx entry (Behind c₀ s T served) c)
    (hQ : Q ⊆ cc.members) (hi : i ∈ Q) (hj : j ∈ Q) (hne : j ≠ i) (hs : s.Plain)
    (hf : (c₀.store j).Plain) (hmatch : LogsMatch s (c₀.store j)) :
    Can cc Q (Upkeep Q i data) (Serving c₀ Q i s T tx entry (Behind c₀ s T (served ++ [j]))) c := by
  obtain ⟨count, hpace, -⟩ := h.peers j hj hne
  refine Runs.Possible.countdown (n := count) (P := fun n => Serving c₀ Q i s T tx entry
    fun k pair => (k = j → Pace s (c₀.store k) T k n pair) ∧ (k ≠ j → Behind c₀ s T served k pair))
    ?_ ?_
  · intro n t ht
    rcases ((ht.peers j hj hne).1 rfl).rounds hs.aligned hs.firstIndex hf.aligned hf.firstIndex
      hmatch (ClusterConfig.mem_peers (hQ hi) (hQ hj) hne) with hdone | hround
    · left
      refine { ht with peers := ?_ }
      intro k hk hki
      by_cases hkj : k = j
      · subst hkj
        exact .of_matched hdone
      · exact ((ht.peers k hk hki).2 hkj).concat hkj
    · right
      have hR : SeesPeer s T fun k pair => (k = j → Pace s (c₀.store k) T k n pair) ∧
          (k ≠ j → Behind c₀ s T served k pair) := by
        intro k L L' F hlead hk
        exact ⟨fun heq => (hk.1 heq).sees hlead, fun hkj => Behind.sees k L L' F hlead (hk.2 hkj)⟩
      refine (ht.round (P := fun k pair => ∃ m < n, Pace s (c₀.store k) T k m pair) hQ hi hj hne
        hR hround).mono ?_
      intro u hu
      obtain ⟨m, hlt, hm⟩ := (hu.peers j hj hne).1 rfl
      refine ⟨m, hlt, { hu with peers := ?_ }⟩
      intro k hk hki
      refine ⟨?_, fun hkj => ((hu.peers k hk hki).2 hkj).2 hkj⟩
      rintro rfl
      exact hm
  · refine { h with peers := ?_ }
    intro k hk hki
    refine ⟨?_, fun _ => h.peers k hk hki⟩
    rintro rfl
    exact hpace

/-- One after the other, all of them do. -/
theorem Serving.all (h : Serving c₀ Q i s T tx entry (Behind c₀ s T []) c)
    (hQ : Q ⊆ cc.members) (hi : i ∈ Q) (hs : s.Plain)
    (hlogs : ∀ k ∈ Q, k ≠ i → (c₀.store k).Plain ∧ LogsMatch s (c₀.store k)) :
    Can cc Q (Upkeep Q i data)
      (Serving c₀ Q i s T tx entry fun k => Matched s T k s.lastIndex) c := by
  have hserved : Can cc Q (Upkeep Q i data)
      (Serving c₀ Q i s T tx entry (Behind c₀ s T (Q.erase i).toList)) c := by
    refine Runs.Possible.each
      (I := fun served => Serving c₀ Q i s T tx entry (Behind c₀ s T served)) _ ?_ h
    intro served j waiting hl t ht
    have hj : j ∈ Q.erase i := by
      rw [← Finset.mem_toList, hl]
      exact List.mem_append_right _ List.mem_cons_self
    obtain ⟨hne, hjQ⟩ := Finset.mem_erase.mp hj
    obtain ⟨hf, hmatch⟩ := hlogs j hjQ hne
    exact ht.serve hQ hi hjQ hne hs hf hmatch
  refine hserved.mono ?_
  intro t ht
  refine ht.mono ?_
  intro k hk hki pair hbehind
  exact hbehind.matched (Finset.mem_toList.mpr (Finset.mem_erase.mpr ⟨hki, hk⟩))

/-- When all of them hold the log of the leader, the next heartbeat commits it. -/
theorem Serving.commits (h : Serving c₀ Q i s T tx entry (fun k => Matched s T k s.lastIndex) c)
    (hQ : Q ⊆ cc.members) (hi : i ∈ Q) (hquorum : (cc.config i).quorum ≤ Q.card)
    (hterm : s.term s.lastIndex = .ok T) (hindex : entry.index = s.lastIndex) :
    Can cc Q (Upkeep Q i data)
      (fun d => Serving c₀ Q i s T tx entry (fun k => Matched s T k s.lastIndex) d ∧
      entry.index ≤ (d.sm i).commitIndex ∧
      .answered tx (.ok entry.index) ∈ (d.proc i).history) c := by
  have hlog : (c.proc i).node.storage = { s with
      hardState := (c.proc i).node.storage.hardState } :=
    eq_of_log h.heads.entries h.heads.snapshot
  have hlast : (c.proc i).node.storage.lastIndex = s.lastIndex := by
    rw [hlog]
    rfl
  have htop : unwrapOr ((c.proc i).node.storage.term (c.proc i).node.storage.lastIndex) 0 =
      (c.proc i).node.sm.currentTerm := by
    rw [hlast, hlog, h.heads.term]
    exact congrArg (unwrapOr · 0) hterm
  have hheld : (cc.config i).quorum ≤
      (c.proc i).node.sm.replicated (c.proc i).node.storage.lastIndex := by
    have hsub : Q.erase i ⊆ (c.proc i).node.sm.holders s.lastIndex := by
      intro k hk
      obtain ⟨hki, hkQ⟩ := Finset.mem_erase.mp hk
      obtain ⟨pr, hL, -, hmatch⟩ := (h.peers k hkQ hki).leading
      exact RaftStateMachine.mem_holders_iff.mpr ⟨pr, hL.progress, hmatch.ge⟩
    have hcard := Finset.card_le_card hsub
    rw [Finset.card_erase_of_mem hi] at hcard
    rw [hlast, RaftStateMachine.replicated_eq]
    omega
  obtain ⟨hsame, -, hwaits⟩ := heartbeat_keeps (cc.config i) h.heads.role
  obtain ⟨hcommit, htold⟩ := heartbeat_commits h.heads.role htop hheld
  refine (can_timer (.inr (.inl rfl)) (hQ hi) (h.looping i hi)).mono ?_
  intro d hd
  refine ⟨h.leads hd hi (by intro heq; cases heq) (h.heads.same hsame) hwaits ?_, ?_, ?_⟩
  · intro k hk hki hk'
    obtain ⟨pr, hL, hnext, hmatch⟩ := hk'.leading
    exact ⟨⟨pr, hL.same hsame, hnext, hmatch⟩, hk'.ready, hk'.agreed, hk'.first, hk'.last⟩
  · rw [hd.sm, hindex, ← hlast]
    exact hcommit
  · rw [hd.proc]
    rcases h.awaited with hwait | hold
    · exact List.mem_append_right _ (htold _ hwait (hindex.trans hlast.symm).le)
    · exact List.mem_append_left _ hold

/-- A leader records that it accepted a proposal. -/
theorem turn_propose_accepts {cfg : RaftConfig} {p : Process MemStorage}
    (hrole : p.node.sm.role = .leader) (data : Bytes) (tx : Sender) :
    .accepted tx (p.node.minted data) ∈
      (p.turn cfg (.message (.propose ⟨data, some tx⟩))).effects := by
  have hlead : ¬ (NodeTurn.sm (Turn.start p.node)).role ≠ .leader := not_not_intro hrole
  show _ ∈ (NodeTurn.onProposal cfg ⟨data, some tx⟩ (Turn.start p.node)).effects
  unfold NodeTurn.onProposal
  dsimp only
  rw [if_neg hlead, NodeTurn.lastIndexOr0_eq]
  dsimp only
  rw [NodeTurn.write_append]
  dsimp only
  have hgo : ∀ y : NodeTurn MemStorage, y.effects ⊆ (y.replicateAll cfg).effects := by
    intro y
    obtain ⟨es, heff, -⟩ : Goes (fun _ => True) cfg (.timer false true) y (y.replicateAll cfg) :=
      Goes.replicateAll y
    rw [heff]
    exact List.subset_append_left _ _
  apply hgo
  rw [Turn.emit_effects]
  exact List.mem_append_right _ (List.mem_singleton_self _)

/-- A log still matches another with one more entry, of a term the other does not have. -/
theorem LogsMatch.snoc {f : MemStorage} (h : LogsMatch s f) (hs : s.Plain)
    (hindex : entry.index = s.lastIndex + 1) (hnew : ∀ e ∈ f.entries, e.term < entry.term) :
    LogsMatch (s.appendEntries [entry]) f := by
  have hcases : ∀ n e, (s.appendEntries [entry]).get? n = some e →
      s.get? n = some e ∨ (e = entry ∧ entry.index = n) := by
    intro n e hget
    unfold MemStorage.get? at hget ⊢
    rw [hs.aligned.entries_snoc hindex, List.find?_append, Option.or_eq_some_iff] at hget
    rcases hget with hold | ⟨-, hlast⟩
    · exact .inl hold
    · obtain rfl := List.mem_singleton.mp (List.mem_of_find?_eq_some hlast)
      exact .inr ⟨rfl, by simpa using List.find?_some hlast⟩
  intro n a b ha hb hterm m hm a' b' ha' hb'
  have ha₀ : s.get? n = some a := by
    refine (hcases n a ha).resolve_right ?_
    rintro ⟨rfl, -⟩
    exact Nat.ne_of_gt (hnew b (List.mem_of_find?_eq_some hb)) hterm
  refine h n a b ha₀ hb hterm m hm a' b' ((hcases m a' ha').resolve_right ?_) hb'
  -- the new entry is behind the one at which they have the same term
  rintro ⟨rfl, hplace⟩
  have hle := (hs.aligned.term_of_get? ha₀).2.1
  omega

/-- A new leader has fresh progress for each of its peers. -/
theorem NewLeader.lookup {cfg : RaftConfig} {last : ℕ} {sm : RaftStateMachine}
    (h : NewLeader cfg last T sm) (hk : k ∈ cfg.peers) :
    sm.progress.lookup k = some (Progress.new (last + 1)) := by
  rw [h.progress]
  have hmem := (mem_freshProgress last cfg.peers k).mpr hk
  obtain ⟨pr, hpr⟩ := Option.isSome_iff_exists.mp (AList.lookup_isSome.mpr hmem)
  rw [hpr, (RaftStateMachine.freshProgress_lookup hpr).2]

/-- A new leader takes a proposal. -/
theorem NewLeader.proposes (h : NewLeader (cc.config i) (c.store i).lastIndex T (c.sm i))
    (hkept : Kept c₀ Q c) (hterms : ∀ j ∈ Q, (c.sm j).currentTerm = T) (hQ : Q ⊆ cc.members)
    (hi : i ∈ Q) (hs : (c₀.store i).Plain) (hbuf : ∀ j ∈ Q, (c₀.proc j).node.snapshotBuf = none)
    (hentry : entry = ⟨T, (c₀.store i).lastIndex + 1, data, .normal⟩)
    (hlog : s = (c₀.store i).appendEntries [entry]) :
    Can cc Q (Upkeep Q i data)
      (fun d => ∃ tx, Serving c₀ Q i s T tx entry (Behind c₀ s T []) d) c := by
  refine (can_call (.inr (.inr rfl)) (hQ hi) (hkept.looping i hi)).mono ?_
  intro d hd
  have hsame := hkept.log i hi
  have hlast : (c.store i).lastIndex = (c₀.store i).lastIndex := congrArg Prod.fst hsame.tip
  have hminted : (c.proc i).node.minted data = entry := by
    rw [hentry, ← hlast, ← h.term]
    rfl
  have hnode : (d.proc i).node = ((c.proc i).node.appended [entry]).awaiting
      ((c.proc i).node.pending ++ [(entry.index, c.nextSender)]) := by
    rw [hd.node, ← hminted]
    exact turn_propose h.role data c.nextSender
  have hhistory : (d.proc i).history = (c.proc i).history ++
      ((c.proc i).turn (cc.config i) (.message (.propose ⟨data, some c.nextSender⟩))).effects := by
    rw [hd.proc]
    rfl
  have hslast : s.lastIndex = (c₀.store i).lastIndex + 1 := by
    rw [hlog, hs.aligned.lastIndex_snoc (by rw [hentry]), hentry]
  have hheads : Heads s T (d.proc i).node := by
    rw [hnode, hlog]
    refine ⟨h.role, h.term, ?_, ?_⟩
    · show ((c.proc i).node.storage.appendEntries [entry]).entries = _
      rw [hsame.storage]
      rfl
    · show ((c.proc i).node.storage.appendEntries [entry]).snapshot = _
      rw [appendEntries_snapshot, appendEntries_snapshot]
      exact hsame.snapshot
  refine ⟨c.nextSender, ?_, ?_, hheads, ?_, .inl ?_, ?_⟩
  · intro k hk
    rw [hd.others k fun heq => hk (heq ▸ hi)]
    exact hkept.outside k hk
  · intro j hj
    exact hd.looping (by intro heq; cases heq) j (hkept.looping j hj)
  · rw [hhistory, ← hminted]
    exact List.mem_append_right _ (turn_propose_accepts h.role data c.nextSender)
  · rw [hnode]
    exact List.mem_append_right _ (List.mem_singleton_self _)
  · intro k hk hki
    have hlookup := h.lookup (ClusterConfig.mem_peers (hQ hi) (hQ hk) hki)
    rw [hlast, ← hslast] at hlookup
    have hlead : Leading s T k (Progress.new s.lastIndex) (d.proc i).node := by
      refine ⟨hheads.role, hheads.term, ?_, hheads.entries, hheads.snapshot⟩
      rw [hnode]
      exact hlookup
    rw [hd.others k hki]
    have hready : Ready T (c.proc k).node :=
      ⟨(hkept.log k hk).buffer.trans (hbuf k hk), (hterms k hk).le⟩
    refine ⟨_, .probing ⟨⟨_, hlead, rfl, rfl⟩, hready, (hkept.log k hk).entries,
      (hkept.log k hk).snapshot⟩ ?_ ?_, ?_⟩
    · show 1 ≤ s.lastIndex
      omega
    · show s.lastIndex ≤ s.lastIndex + 1
      omega
    · intro hk'
      cases hk'

end

/-- The logs of two members match in a run in which no term has two leaders. -/
theorem logs_match {cc : ClusterConfig} {p : Prop} {a : Ghost} {c : Cluster MemStorage}
    {i j : NodeId} (hc : Simulation.Holds cc (replication cc p) c a) (hi : i ∈ cc.members)
    (hj : j ∈ cc.members) : LogsMatch (c.store i) (c.store j) := by
  have hpi := (hc.node i hi).disk.plain hc.good
  have hpj := (hc.node j hj).disk.plain hc.good
  intro n e e' he he' hterm m hm b b' hb hb'
  have hindex : e.index = n := by simpa using List.find?_some he
  have hindex' : e'.index = n := by simpa using List.find?_some he'
  have htake := logs_agree hc hi hj (List.mem_of_find?_eq_some he) (List.mem_of_find?_eq_some he')
    (hindex.trans hindex'.symm) hterm
  have hget := hpi.get?_eq_of_take hpj htake (hm.trans hindex.ge)
  rw [hget, hb'] at hb
  exact (Option.some.inj hb).symm

/-- In every run from empty storages a log is compacted nowhere, no chunk is buffered, and no
entry has a later term than its node. -/
theorem plain_exec (cc : ClusterConfig) (es : List Event) {i : NodeId} (hi : i ∈ cc.members) :
    ((exec cc (init fun _ => MemStorage.new) es).store i).Plain ∧
      ((exec cc (init fun _ => MemStorage.new) es).proc i).node.snapshotBuf = none ∧
      ∀ e ∈ ((exec cc (init fun _ => MemStorage.new) es).store i).entries,
        e.term ≤ ((exec cc (init fun _ => MemStorage.new) es).sm i).currentTerm := by
  have hinit : Booking.Holds .ordered (fun _ n => TermsOrdered n) cc
      (init fun _ => MemStorage.new) := by
    refine Booking.holds_init fun i _ => ⟨?_, rfl, .nil, ?_, Nat.le_refl _⟩
    · intro k hk
      exact absurd hk (Nat.not_lt_zero k)
    · intro e he
      cases he
  have hfree : Runs.Within (step cc) (fun _ _ => True) (init fun _ => MemStorage.new) es :=
    Runs.within_of_forall fun _ _ => trivial
  obtain ⟨hbase, hI⟩ := (terms_booking.holds_run (fun _ _ _ _ _ _ => trivial) hinit hfree).node i hi
  exact ⟨⟨hbase.aligned, hI.snapshot⟩, hbase.buffer, fun e he => (hI.saved e he).trans hI.current⟩

/-- What came of a proposal that the nodes of `Q` took up in `c`: in `d`, node `i` leads them in a
later term, it has put the proposal behind the log it had, committed it and answered, and the log
of each of them agrees with its own up to there. -/
structure TakenUp (Q : Finset NodeId) (i : NodeId) (tx : Sender) (entry : LogEntry)
    (c d : Cluster MemStorage) : Prop where
  later : ∀ j ∈ Q, (c.sm j).currentTerm < entry.term
  leads : d.Leads i entry.term
  accepted : .accepted tx entry ∈ (d.proc i).history
  answered : .answered tx (.ok entry.index) ∈ (d.proc i).history
  committed : entry.index ≤ (d.sm i).commitIndex
  log : (d.store i).entries = (c.store i).entries ++ [entry]
  held : ∀ j ∈ Q, ∀ n ≤ entry.index, (d.store j).get? n = (d.store i).get? n
  outside : ∀ k, k ∉ Q → d.proc k = c.proc k

/-- With the log of the leader a follower holds the same entries. -/
theorem Matched.held {s : MemStorage} {T : ℕ} {k : NodeId} {L F : RaftNodeInner MemStorage}
    (h : Matched s T k s.lastIndex (L, F)) (hs : s.Plain) {n : ℕ} (hn : n ≤ s.lastIndex) :
    F.storage.get? n = s.get? n := by
  by_cases hfirst : s.firstIndex ≤ n
  · exact h.agreed.same n hfirst hn
  · have hlt := Nat.lt_of_not_le hfirst
    rw [hs.aligned.get?_eq_none hlt]
    have hone := F.storage.one_le_firstIndex
    rw [hs.firstIndex] at hlt
    exact h.agreed.aligned.get?_eq_none (hlt.trans_le hone)

/-- A quorum takes up a proposal when its logs match. -/
theorem takes_up {cc : ClusterConfig} {c : Cluster MemStorage} {Q : Finset NodeId}
    (hQ : Q ⊆ cc.members) (hne : Q.Nonempty) (hquorum : ∀ j ∈ Q, (cc.config j).quorum ≤ Q.card)
    (hloop : ∀ j ∈ Q, (c.proc j).looping = true) (hrole : ∀ j ∈ Q, (c.sm j).role ≠ .leader)
    (hplain : ∀ j ∈ Q, (c.store j).Plain) (hbuf : ∀ j ∈ Q, (c.proc j).node.snapshotBuf = none)
    (hterms : ∀ j ∈ Q, ∀ e ∈ (c.store j).entries, e.term ≤ (c.sm j).currentTerm)
    (hmatch : ∀ j ∈ Q, ∀ k ∈ Q, LogsMatch (c.store j) (c.store k)) (data : Bytes) :
    ∃ i ∈ Q, Can cc Q (Upkeep Q i data)
      (fun d => ∃ tx entry, entry.data = data ∧ TakenUp Q i tx entry c d) c := by
  obtain ⟨i, hi, hcan⟩ := elected hQ hne hquorum hloop hrole
  have hcan : Can cc Q (Upkeep Q i data) _ c := hcan.widen fun _ _ => .mono fun _ => .inl
  refine ⟨i, hi, hcan.bind ?_⟩
  rintro c₁ ⟨T, ⟨hlater, -⟩, hkept, hleader, hsame⟩
  obtain ⟨entry, hentry⟩ : ∃ entry : LogEntry,
    entry = ⟨T, (c.store i).lastIndex + 1, data, .normal⟩ := ⟨_, rfl⟩
  obtain ⟨s, hlog⟩ : ∃ s, s = (c.store i).appendEntries [entry] := ⟨_, rfl⟩
  have hindex : entry.index = (c.store i).lastIndex + 1 := by rw [hentry]
  have hterm : entry.term = T := by rw [hentry]
  have halign := (hplain i hi).aligned
  have hentries : s.entries = (c.store i).entries ++ [entry] := by
    rw [hlog]
    exact halign.entries_snoc hindex
  have hs : s.Plain := by
    rw [hlog]
    exact ⟨halign.append_snoc hindex, (appendEntries_snapshot _ _).trans (hplain i hi).snapshot⟩
  have hlast : entry.index = s.lastIndex := by
    rw [hlog, halign.lastIndex_snoc hindex]
  have htop : s.term s.lastIndex = .ok T := by
    have hget := hs.aligned.get?_of_mem (e := entry) (by simp [hentries])
    rw [← hlast, ← hterm]
    exact (hs.aligned.term_of_get? hget).2.2
  have hlogs : ∀ k ∈ Q, k ≠ i → (c.store k).Plain ∧ LogsMatch s (c.store k) := by
    intro k hk _
    refine ⟨hplain k hk, ?_⟩
    rw [hlog]
    apply (hmatch i hi k hk).snoc (hplain i hi) hindex
    intro e he
    rw [hterm]
    exact (hterms k hk e he).trans_lt (hlater k hk)
  refine (hleader.proposes hkept hsame hQ hi (hplain i hi) hbuf hentry hlog).bind ?_
  rintro c₂ ⟨tx, h₂⟩
  refine (h₂.all hQ hi hs hlogs).bind ?_
  intro c₃ h₃
  refine (h₃.commits hQ hi (hquorum i hi) htop hlast).mono ?_
  rintro d ⟨hd, hcommit, hanswered⟩
  refine ⟨tx, entry, by rw [hentry], ?_, ?_, hd.accepted, hanswered, hcommit, ?_, ?_, hd.outside⟩
  · rw [hterm]
    exact hlater
  · exact ⟨hd.heads.role, hd.heads.term.trans hterm.symm⟩
  · exact hd.heads.entries.trans hentries
  · intro j hj n hn
    by_cases hji : j = i
    · rw [hji]
    · have hleader' : (d.store i).get? n = s.get? n :=
        congrArg (List.find? fun e : LogEntry => decide (e.index = n)) hd.heads.entries
      rw [hleader']
      exact (hd.peers j hj hji).held hs (hn.trans hlast.le)

/-- **A quorum goes on answering**: after any run from empty storages in which no term had two
leaders, with crashes in any number after which the restarted process restores its hard state
before any handler runs, a quorum of running nodes none of which leads can take up any proposal by
their election timeouts, the heartbeats of one of them, the proposal to that one, and packets among
themselves alone.
SRCLINE: iceraft-node/src/node.rs:302-368, 471-503, 574-637, 697-725, 749-801 -/
theorem quorum_answers (cc : ClusterConfig) (es : List Event) (Q : Finset NodeId) (data : Bytes)
    (hunique : (exec cc (init fun _ => MemStorage.new) es).UniqueLeaders cc)
    (hQ : Q ⊆ cc.members) (hne : Q.Nonempty) (hquorum : ∀ j ∈ Q, (cc.config j).quorum ≤ Q.card)
    (hloop : ∀ j ∈ Q, ((exec cc (init fun _ => MemStorage.new) es).proc j).looping = true)
    (hrole : ∀ j ∈ Q, ((exec cc (init fun _ => MemStorage.new) es).sm j).role ≠ .leader) :
    ∃ i ∈ Q, ∃ es' entry tx,
      Runs.Within (step cc) (Orderly Q (Upkeep Q i data))
        (exec cc (init fun _ => MemStorage.new) es) es' ∧ entry.data = data ∧
      TakenUp Q i tx entry (exec cc (init fun _ => MemStorage.new) es)
        (exec cc (init fun _ => MemStorage.new) (es ++ es')) := by
  have hany : Within cc (StrictIf False) (init fun _ => MemStorage.new) es :=
    Runs.within_of_forall fun c e => by
      unfold Meets
      split
      · exact False.elim
      · trivial
  obtain ⟨b, -, hb⟩ := replication_run replication_init hunique hany
  obtain ⟨i, hi, es', hes', tx, entry, hdata, htaken⟩ := takes_up hQ hne hquorum hloop hrole
    (fun j hj => (plain_exec cc es (hQ hj)).1) (fun j hj => (plain_exec cc es (hQ hj)).2.1)
    (fun j hj => (plain_exec cc es (hQ hj)).2.2)
    (fun j hj k hk => logs_match hb (hQ hj) (hQ hk)) data
  refine ⟨i, hi, es', entry, tx, hes', hdata, ?_⟩
  have happend : exec cc (init fun _ => MemStorage.new) (es ++ es') =
      exec cc (exec cc (init fun _ => MemStorage.new) es) es' := Runs.exec_append _ es es'
  rw [happend]
  exact htaken

/-- Node 1 leads, and its entry is on node 2 alone; then it goes silent. -/
theorem quorum_answers_matchingRun :
    (exec trio (init fun _ => MemStorage.new) matchingRun).Leads 1 1 ∧
      ∃ i ∈ ({2, 3} : Finset NodeId), ∃ es' entry tx,
        Runs.Within (step trio) (Orderly {2, 3} (Upkeep {2, 3} i [8]))
          (exec trio (init fun _ => MemStorage.new) matchingRun) es' ∧ entry.data = [8] ∧
        TakenUp {2, 3} i tx entry (exec trio (init fun _ => MemStorage.new) matchingRun)
          (exec trio (init fun _ => MemStorage.new) (matchingRun ++ es')) :=
  ⟨by decide +kernel, quorum_answers trio matchingRun {2, 3} [8] (by decide +kernel) (by decide)
    (by decide) (by decide) (by decide +kernel) (by decide +kernel)⟩

end IceRaft
