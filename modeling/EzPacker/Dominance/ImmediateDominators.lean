import EzPacker.Dominance.NonSsaToSsaPass
import Mathlib.Algebra.Order.BigOperators.Group.List
import Mathlib.Algebra.Order.Group.Nat
import Mathlib.Algebra.Group.Action.Defs

/-!
# The rounds find the immediate dominators

`intersect` finds the nearest common ancestor of two blocks, so a visit is one of the
visits of `Lib.DominatorTree`. A round that changes a block moves it up the tree, which
bounds the number of rounds; a round that changes none leaves a stable tree.
-/

namespace EzPacker.Dominance

open List Function Option CodeFlow RootedGraph

section Intersect

variable {g : Cfg} {P : g.graph.PostOrder} {T indexes : ℕ → Option ℕ} (h : Candidates P T)
  (hidx : ∀ b, g.graph.Node b → indexes b = some (P.rank b))

include h

/-- The lower of two nodes is no ancestor of the other. -/
theorem above_move {f f' next : ℕ} (hlt : P.rank f < P.rank f') (hnext : T f = some next) (x : ℕ) :
    Above T x f ∧ Above T x f' ↔ Above T x next ∧ Above T x f' := by
  rw [above_iff hnext]
  refine and_congr_left fun hx => or_iff_right ?_
  rintro rfl
  exact absurd (h.rank_le hx) (by omega)

theorem rank_le_root {b : ℕ} (hb : (T b).isSome) : P.rank b ≤ P.rank g.graph.root :=
  h.rank_le (h.root_above hb)

include hidx

variable {fuel : ℕ}

theorem intersect_eq {finger1 finger2 : ℕ} (h1 : (T finger1).isSome) (h2 : (T finger2).isSome)
    (hfuel : (P.rank g.graph.root - P.rank finger1) + (P.rank g.graph.root - P.rank finger2) <
      fuel) :
    ∃ n, intersect indexes T fuel finger1 finger2 = some n ∧ (T n).isSome ∧
      ∀ x, Above T x n ↔ Above T x finger1 ∧ Above T x finger2 := by
  induction fuel generalizing finger1 finger2 with
  | zero => omega
  | succ fuel ih =>
    by_cases heq : finger1 = finger2
    · subst heq
      exact ⟨finger1, by rw [intersect, if_pos rfl], h1, fun x => (and_self_iff).symm⟩
    · have hnode1 := h.node_of_isSome h1
      have hnode2 := h.node_of_isSome h2
      obtain ⟨next1, hnext1⟩ := isSome_iff_exists.mp h1
      obtain ⟨next2, hnext2⟩ := isSome_iff_exists.mp h2
      have hroot1 := rank_le_root h h1
      have hroot2 := rank_le_root h h2
      by_cases hlt : P.rank finger1 < P.rank finger2
      · have hroot : finger1 ≠ g.graph.root := by
          rintro rfl
          omega
        have hup := h.rank_lt hroot hnext1
        have hne : next1 ≠ finger1 := by
          rintro rfl
          exact lt_irrefl _ hup
        have hsome := h.kept _ _ hnext1
        obtain ⟨n, hn, hnsome, hnx⟩ := ih hsome h2 (by have := rank_le_root h hsome; omega)
        refine ⟨n, ?_, hnsome, fun x => (hnx x).trans (above_move h hlt hnext1 x).symm⟩
        simp only [intersect, heq, hidx _ hnode1, hidx _ hnode2, hlt, hnext1, hne, if_true,
          if_false]
        exact hn
      · have hlt' : P.rank finger2 < P.rank finger1 :=
          lt_of_le_of_ne (not_lt.mp hlt) fun hrank =>
            heq (P.rank_inj _ _ hnode2 hnode1 hrank).symm
        have hroot : finger2 ≠ g.graph.root := by
          rintro rfl
          omega
        have hup := h.rank_lt hroot hnext2
        have hne : next2 ≠ finger2 := by
          rintro rfl
          exact lt_irrefl _ hup
        have hsome := h.kept _ _ hnext2
        obtain ⟨n, hn, hnsome, hnx⟩ := ih h1 hsome (by have := rank_le_root h hsome; omega)
        refine ⟨n, ?_, hnsome, fun x => ?_⟩
        · simp only [intersect, heq, hidx _ hnode1, hidx _ hnode2, hlt, hnext2, hne, if_false]
          exact hn
        · rw [hnx, and_comm, and_comm (a := Above T x finger1)]
          exact (above_move h hlt' hnext2 x).symm

/-- The loop over the predecessors, from the candidate found so far. -/
theorem intersectPreds_eq (hfuel : 2 * P.rank g.graph.root < fuel) (preds : List ℕ)
    (found : Option ℕ) (hfound : ∀ a, found = some a → (T a).isSome) :
    ∃ newIdom, preds.foldlM (intersectPred indexes T fuel) found = some newIdom ∧
      (newIdom = none → found = none ∧ ∀ p ∈ preds, T p = none) ∧
      ∀ n, newIdom = some n → (T n).isSome ∧
        ∀ x, Above T x n ↔ (∀ a, found = some a → Above T x a) ∧
          ∀ p ∈ preds, (T p).isSome → Above T x p := by
  induction preds generalizing found with
  | nil =>
    refine ⟨found, rfl, fun hnone => ⟨hnone, by simp⟩, ?_⟩
    rintro n rfl
    refine ⟨hfound n rfl, fun x => ?_⟩
    simp
  | cons p preds ih =>
    by_cases hp : (T p).isSome
    · have hstep : ∃ m, intersectPred indexes T fuel found p = some (some m) ∧ (T m).isSome ∧
          ∀ x, Above T x m ↔ (∀ a, found = some a → Above T x a) ∧ Above T x p := by
        cases hcase : found with
        | none => exact ⟨p, by simp [intersectPred, hp], hp, by simp⟩
        | some a =>
          have ha := hfound a hcase
          have hroom : (P.rank g.graph.root - P.rank p) +
              (P.rank g.graph.root - P.rank a) < fuel := by omega
          obtain ⟨m, hm, hmsome, hmx⟩ := intersect_eq h hidx hp ha hroom
          refine ⟨m, by simp [intersectPred, hp, hm], hmsome, fun x => ?_⟩
          rw [hmx]
          simp [and_comm]
      obtain ⟨m, hm, hmsome, hmx⟩ := hstep
      obtain ⟨newIdom, hrun, hnone, hsome⟩ := ih (some m) (by
        rintro _ ⟨⟩
        exact hmsome)
      refine ⟨newIdom, ?_, fun hn => ?_, fun n hn => ⟨(hsome n hn).1, fun x => ?_⟩⟩
      · rw [foldlM_cons, hm]
        exact hrun
      · exact absurd (hnone hn).1 (by simp)
      · rw [(hsome n hn).2]
        simp only [some.injEq, forall_eq', forall_mem_cons, hmx, and_assoc, hp, true_implies]
    · obtain ⟨newIdom, hrun, hnone, hsome⟩ := ih found hfound
      refine ⟨newIdom, ?_, fun hn => ⟨(hnone hn).1, ?_⟩, fun n hn => ⟨(hsome n hn).1, fun x => ?_⟩⟩
      · have hskip : intersectPred indexes T fuel found p = some found := by
          simp [intersectPred, hp]
        rw [foldlM_cons, hskip]
        exact hrun
      · rw [forall_mem_cons]
        exact ⟨by simpa using hp, (hnone hn).2⟩
      · rw [(hsome n hn).2]
        simp [hp]

/-- A visit of a block whose search parent has a candidate. -/
theorem visitBlock_eq {b : ℕ} (hfuel : 2 * P.rank g.graph.root < fuel) (changed : Bool)
    (hs : Settled P T (P.rank b + 1)) (hb : g.graph.Node b) (hroot : b ≠ g.graph.root) :
    ∃ n, Nearest (G := g.graph) T b n ∧
      visitBlock g.result indexes g.func.entryPoint fuel (T, changed) b =
        some (update T b (some n), changed || decide ((T b).getD 0 ≠ n)) := by
  obtain ⟨newIdom, hrun, hnone, hsome⟩ :=
    intersectPreds_eq h hidx hfuel (g.result.getPredecessors b) none (by simp)
  have hpred : ∀ p, p ∈ g.result.getPredecessors b ↔ g.graph.edge p b := fun p =>
    (g.converse p b).symm
  cases hcase : newIdom with
  | none =>
    have hparent := (hnone hcase).2 _ ((hpred _).mpr (P.edge_parent b hb hroot))
    have hset := h.isSome_parent hs hb hroot
    rw [hparent] at hset
    cases hset
  | some n =>
    refine ⟨n, ⟨(hsome n hcase).1, fun x => ?_⟩, ?_⟩
    · rw [(hsome n hcase).2]
      simp [hpred]
    · have hentry : b ≠ g.func.entryPoint := hroot
      rw [visitBlock, if_neg hentry, hrun, hcase]
      by_cases hold : (T b).getD 0 = n
      · simp [hold]
      · simp [hold]

end Intersect

/-! ### Rounds -/

/-- The number of the candidate of a block, from 1 on. -/
def weight (rank : ℕ → ℕ) (T : ℕ → Option ℕ) (b : ℕ) : ℕ := (T b).elim 0 fun t => rank t + 1

section Rounds

variable {g : Cfg} {l : List ℕ} (hl : g.graph.IsPostOrder l) {indexes : ℕ → Option ℕ}
  (hidx : ∀ b, g.graph.Node b → indexes b = some (l.idxOf b)) {fuel : ℕ}
  (hfuel : 2 * l.length < fuel)

/-- The tree before the first round. -/
def startTree (g : Cfg) : ℕ → Option ℕ :=
  update (fun _ => none) g.func.entryPoint (some g.func.entryPoint)

theorem candidates_start (P : g.graph.PostOrder) : Candidates P (startTree g) := by
  have hentry : ∀ b t, startTree g b = some t → b = g.graph.root ∧ t = g.graph.root := by
    intro b t ht
    by_cases hb : b = g.func.entryPoint
    · rw [startTree, hb, update_self] at ht
      exact ⟨hb, (some.inj ht).symm⟩
    · rw [startTree, update_of_ne hb] at ht
      cases ht
  constructor
  case root => exact update_self _ _ _
  case node =>
    intro b t ht
    rw [(hentry b t ht).1]
    exact Node.root
  case kept =>
    intro b t ht
    rw [(hentry b t ht).2]
    exact isSome_iff_exists.mpr ⟨_, update_self _ _ _⟩
  case over_parent => exact fun b t hroot ht => absurd (hentry b t ht).1 hroot
  case dominates => exact fun b t hroot ht => absurd (hentry b t ht).1 hroot
  case below => exact fun b t hroot ht => absurd (hentry b t ht).1 hroot

/-- What the visits of the blocks `todo` make of the tree. -/
structure Outcome (todo : List ℕ) (T : ℕ → Option ℕ) (changed : Bool) (T' : ℕ → Option ℕ)
    (changed' : Bool) : Prop where
  candidates : Candidates hl.postOrder T'
  settled : Settled hl.postOrder T' 0
  le : ∀ b, weight l.idxOf T b ≤ weight l.idxOf T' b
  lt : changed' = true → changed = true ∨
    ∃ b, g.graph.Node b ∧ weight l.idxOf T b < weight l.idxOf T' b
  same : changed' = false → changed = false ∧ ∀ b, T' b = T b ∨ T b = none ∧ T' b = some 0
  nearest : changed' = false → (∀ b, g.graph.Node b → (T b).isSome) → T' = T ∧
    ∀ b ∈ todo, b ≠ g.graph.root → ∃ n, T b = some n ∧ Nearest (G := g.graph) T b n

variable {T : ℕ → Option ℕ} {b n : ℕ}

section

variable (h : Candidates hl.postOrder T) (hroot : b ≠ g.graph.root)
  (hn : Nearest (G := g.graph) T b n)
include h hroot hn

theorem weight_update_le (c : ℕ) : weight l.idxOf T c ≤ weight l.idxOf (update T b (some n)) c := by
  by_cases hc : c = b
  · subst hc
    unfold weight
    rw [update_self]
    cases ho : T c with
    | none => exact Nat.zero_le _
    | some o => exact Nat.succ_le_succ (h.rank_le_nearest hroot hn ho)
  · unfold weight
    rw [update_of_ne hc]

theorem weight_update_lt (hne : T b ≠ some n) :
    weight l.idxOf T b < weight l.idxOf (update T b (some n)) b := by
  unfold weight
  rw [update_self]
  cases ho : T b with
  | none => exact Nat.succ_pos _
  | some o =>
    have hon : o ≠ n := by
      rintro rfl
      exact hne ho
    exact Nat.succ_lt_succ (h.rank_lt_of_ne hroot hn ho hon)

end

/-- A visit in front of other visits. -/
theorem Outcome.cons {todo : List ℕ} {T' : ℕ → Option ℕ} {changed changed' : Bool}
    (h : Candidates hl.postOrder T) (hb : g.graph.Node b) (hroot : b ≠ g.graph.root)
    (hn : Nearest (G := g.graph) T b n)
    (hout : Outcome hl todo (update T b (some n))
      (changed || decide ((T b).getD 0 ≠ n)) T' changed') :
    Outcome hl (b :: todo) T changed T' changed' := by
  have hle := weight_update_le hl h hroot hn
  constructor
  case candidates => exact hout.candidates
  case settled => exact hout.settled
  case le => exact fun c => (hle c).trans (hout.le c)
  case lt =>
    intro hc
    rcases hout.lt hc with hch | ⟨c, hcnode, hlt⟩
    · rcases Bool.or_eq_true_iff.mp hch with hch | hne
      · exact Or.inl hch
      · have hold : T b ≠ some n := by
          intro ho
          rw [ho] at hne
          simp at hne
        exact Or.inr ⟨b, hb, (weight_update_lt hl h hroot hn hold).trans_le (hout.le b)⟩
    · exact Or.inr ⟨c, hcnode, (hle c).trans_lt hlt⟩
  case same =>
    intro hc
    obtain ⟨hch, hsame⟩ := hout.same hc
    rw [Bool.or_eq_false_iff] at hch
    have hold : (T b).getD 0 = n := by simpa using hch.2
    refine ⟨hch.1, fun c => ?_⟩
    by_cases hcb : c = b
    · subst hcb
      have hT' : T' c = some n := by
        rcases hsame c with heq | ⟨hnone, -⟩
        · rw [heq, update_self]
        · rw [update_self] at hnone
          cases hnone
      cases ho : T c with
      | none => exact Or.inr ⟨rfl, by rw [hT', ← hold, ho]; rfl⟩
      | some o => exact Or.inl (by rw [hT', ← hold, ho]; rfl)
    · have hc := hsame c
      rwa [update_of_ne hcb] at hc
  case nearest =>
    intro hc hfull
    obtain ⟨hch, -⟩ := hout.same hc
    rw [Bool.or_eq_false_iff] at hch
    obtain ⟨o, ho⟩ := isSome_iff_exists.mp (hfull b hb)
    have hold : o = n := by simpa [ho] using hch.2
    subst hold
    have hupdate : update T b (some o) = T := by
      rw [← ho]
      exact update_eq_self b T
    rw [hupdate] at hout
    obtain ⟨heq, hrest⟩ := hout.nearest hc hfull
    refine ⟨heq, fun c hc' hcroot => ?_⟩
    rcases mem_cons.mp hc' with rfl | hc'
    · exact ⟨o, ho, hn⟩
    · exact hrest c hc' hcroot

/-- A round that changes nothing leaves a stable tree: every block had a candidate, or
all candidates are the 0 that reading the map inserts, and that is the entry. -/
theorem Outcome.stable {T' : ℕ → Option ℕ} (hout : Outcome hl l.reverse T false T' false)
    (hT : T = startTree g ∨ ∀ b, g.graph.Node b → (T b).isSome) : Stable hl.postOrder T' := by
  have hsome : ∀ b, g.graph.Node b → (T' b).isSome := fun b hb =>
    hout.settled.isSome hout.candidates hb (Nat.zero_le _)
  refine ⟨hout.candidates, hsome, fun b t p hroot ht hpb hp => ?_⟩
  have hb : g.graph.Node b := hp.step hpb
  rcases hT with rfl | hfull
  · have hzero : ∀ c, g.graph.Node c → c ≠ g.graph.root → T' c = some 0 := by
      intro c hc hcroot
      have hstart : startTree g c = none := update_of_ne hcroot _ _
      rcases (hout.same rfl).2 c with heq | ⟨-, hz⟩
      · have hset := hsome c hc
        rw [heq, hstart] at hset
        cases hset
      · exact hz
    have ht0 : t = 0 := some.inj (ht.symm.trans (hzero b hb hroot))
    have hentry : t = g.graph.root := by
      by_contra hne
      have hnode := hout.candidates.node_of_isSome (hout.candidates.kept b t ht)
      have hself : T' t = some t := by
        rw [hzero t hnode hne, ht0]
      exact absurd (hout.candidates.rank_lt hne hself) (lt_irrefl _)
    rw [hentry]
    exact hout.candidates.root_above (hsome p hp)
  · obtain ⟨heq, hnearest⟩ := hout.nearest rfl hfull
    obtain ⟨n, hn, hnx⟩ := hnearest b (mem_reverse.mpr ((hl.mem b).mpr hb)) hroot
    rw [heq] at ht
    obtain rfl : t = n := some.inj (ht.symm.trans hn)
    rw [heq]
    exact (hnx.2 t).mp Relation.ReflTransGen.refl p hpb (hfull p hp)

theorem weight_le (h : Candidates hl.postOrder T) (b : ℕ) : weight l.idxOf T b ≤ l.length := by
  unfold weight
  cases hb : T b with
  | none => exact Nat.zero_le _
  | some t =>
    have ht := h.node_of_isSome (h.kept b t hb)
    exact idxOf_lt_length_of_mem ((hl.mem t).mpr ht)

theorem sum_weight_le (h : Candidates hl.postOrder T) :
    (l.map (weight l.idxOf T)).sum ≤ l.length * l.length := by
  have hle := sum_le_card_nsmul (l.map (weight l.idxOf T)) l.length (by
    intro x hx
    obtain ⟨b, -, rfl⟩ := mem_map.mp hx
    exact weight_le hl h b)
  rwa [length_map, smul_eq_mul] at hle

include hl hidx hfuel

theorem visits_outcome (todo done : List ℕ) (hsplit : l = todo.reverse ++ done)
    (T : ℕ → Option ℕ) (changed : Bool) (h : Candidates hl.postOrder T)
    (hs : Settled hl.postOrder T todo.length) :
    ∃ T' changed', todo.foldlM (visitBlock g.result indexes g.func.entryPoint fuel) (T, changed) =
      some (T', changed') ∧ Outcome hl todo T changed T' changed' := by
  induction todo generalizing done T changed with
  | nil =>
    refine ⟨T, changed, rfl, h, hs, fun _ => le_rfl, Or.inl, fun hc => ⟨hc, fun _ => Or.inl rfl⟩,
      fun _ _ => ⟨rfl, by simp⟩⟩
  | cons b todo ih =>
    have hsplit' : l = todo.reverse ++ (b :: done) := by
      rw [hsplit, reverse_cons, append_assoc]
      rfl
    have hb : g.graph.Node b := (hl.mem b).mp (by rw [hsplit']; simp)
    have hrank : hl.postOrder.rank b = todo.length := by
      have hnot : b ∉ todo.reverse := fun hin => by
        have hnodup := hl.nodup
        rw [hsplit'] at hnodup
        exact (nodup_append.mp hnodup).2.2 b hin b mem_cons_self rfl
      change l.idxOf b = todo.length
      rw [hsplit', idxOf_append_of_notMem hnot, idxOf_cons_self, length_reverse]
      rfl
    by_cases hroot : b = g.graph.root
    · have hs' : Settled hl.postOrder T todo.length := by
        intro c hc hcroot hk
        refine hs c hc hcroot (lt_of_le_of_ne hk fun heq => hcroot ?_)
        rw [← hroot]
        exact hl.postOrder.rank_inj c b hc hb (heq.symm.trans hrank.symm)
      obtain ⟨T', changed', hrun, hout⟩ := ih _ hsplit' T changed h hs'
      have hskip : visitBlock g.result indexes g.func.entryPoint fuel (T, changed) b =
          some (T, changed) := if_pos hroot
      refine ⟨T', changed', ?_, { hout with nearest := fun hc hfull => ?_ }⟩
      · rw [foldlM_cons, hskip]
        exact hrun
      · refine ⟨(hout.nearest hc hfull).1, fun c hc' hcroot => ?_⟩
        rcases mem_cons.mp hc' with rfl | hc'
        · exact absurd hroot hcroot
        · exact (hout.nearest hc hfull).2 c hc' hcroot
    · have hs' : Settled hl.postOrder T (hl.postOrder.rank b + 1) := by
        rw [hrank]
        exact hs
      have hroom : 2 * hl.postOrder.rank g.graph.root < fuel := by
        have hlt : l.idxOf g.graph.root < l.length :=
          idxOf_lt_length_of_mem ((hl.mem _).mpr Node.root)
        change 2 * l.idxOf g.graph.root < fuel
        omega
      obtain ⟨n, hn, hvisit⟩ := visitBlock_eq h hidx hroom changed hs' hb hroot
      have hset := Settled.update h hs' hb hroot hn
      rw [hrank] at hset
      obtain ⟨T', changed', hrun, hout⟩ := ih _ hsplit' _
        (changed || decide ((T b).getD 0 ≠ n)) (h.update hs' hb hroot hn) hset
      refine ⟨T', changed', ?_, hout.cons hl h hb hroot hn⟩
      rw [foldlM_cons, hvisit]
      exact hrun

theorem visitUntilStable_eq (rounds : ℕ) (T : ℕ → Option ℕ) (h : Candidates hl.postOrder T)
    (hT : T = startTree g ∨ ∀ b, g.graph.Node b → (T b).isSome)
    (hrounds : l.length * l.length - (l.map (weight l.idxOf T)).sum < rounds) :
    ∃ T', visitUntilStable g.result indexes g.func.entryPoint fuel l rounds T = some T' ∧
      Stable hl.postOrder T' := by
  induction rounds generalizing T with
  | zero => omega
  | succ rounds ih =>
    have hstart : Settled hl.postOrder T l.reverse.length := by
      intro c hc _ hk
      rw [length_reverse] at hk
      exact absurd (idxOf_lt_length_of_mem ((hl.mem c).mpr hc)) (not_lt.mpr hk)
    obtain ⟨T', changed', hrun, hout⟩ :=
      visits_outcome hl hidx hfuel l.reverse [] (by simp) T false h hstart
    cases changed' with
    | false =>
      refine ⟨T', ?_, hout.stable hl hT⟩
      rw [visitUntilStable, visitBlocks, hrun]
      rfl
    | true =>
      obtain ⟨b, hb, hlt⟩ := (hout.lt rfl).resolve_left Bool.false_ne_true
      have hsum := sum_lt_sum (weight l.idxOf T) (weight l.idxOf T')
        (fun c _ => hout.le c) ⟨b, (hl.mem b).mpr hb, hlt⟩
      have hbound := sum_weight_le hl hout.candidates
      have hfull : ∀ c, g.graph.Node c → (T' c).isSome := fun c hc =>
        hout.settled.isSome hout.candidates hc (Nat.zero_le _)
      obtain ⟨T'', hrest, hstable⟩ := ih T' hout.candidates (Or.inr hfull) (by omega)
      refine ⟨T'', ?_, hstable⟩
      rw [visitUntilStable, visitBlocks, hrun]
      exact hrest

end Rounds

end EzPacker.Dominance
