import EzPacker.RegAlloc.GraphFacts

/-!
# What merging keeps

Registers that interfere are never merged into one, and the nodes they are merged into
interfere. What merging does not see is an alias: a virtual register that interferes
with one name of a hardware register can be merged into another name of it. Where no
merge does that, names that interfere stay apart as hardware registers.
-/

namespace EzPacker.RegAlloc

open Mir KeyedSet InterferenceGraph

/-- Different names of one hardware register. -/
def Aliases : RegKey → RegKey → Prop
  | .preg c id, .preg c' id' =>
    c ≠ c' ∧ c.map MirRegisterClass.bank = c'.map MirRegisterClass.bank ∧ id = id'
  | _, _ => False

theorem Aliases.symm {a b : RegKey} (h : Aliases a b) : Aliases b a := by
  cases a <;> cases b
  · cases h
  · cases h
  · cases h
  · exact ⟨h.1.symm, h.2.1.symm, h.2.2.symm⟩

theorem Aliases.physical {a b : RegKey} (h : Aliases a b) :
    a.isVirtual = false ∧ b.isVirtual = false := by
  cases a <;> cases b
  · cases h
  · cases h
  · cases h
  · exact ⟨rfl, rfl⟩

/-! ### The register a merged one stands for -/

/-- Merges, the newest first: each is of two registers not merged before. -/
inductive Chained : List (MirRegisterRef × MirRegisterRef) → Prop
  | nil : Chained []
  | cons {v u : MirRegisterRef} {coalesced : List (MirRegisterRef × MirRegisterRef)} :
      Chained coalesced → (∀ e ∈ coalesced, regKey e.1 ≠ regKey v) →
      (∀ e ∈ coalesced, regKey e.1 ≠ regKey u) → regKey v ≠ regKey u →
      Chained ((v, u) :: coalesced)

/-- The key of the register that a register stands for, merge by merge. -/
def chase : List (MirRegisterRef × MirRegisterRef) → RegKey → RegKey
  | [], k => k
  | (v, u) :: coalesced, k =>
    if chase coalesced k = regKey v then regKey u else chase coalesced k

def IsRoot (coalesced : List (MirRegisterRef × MirRegisterRef)) (r : MirRegisterRef) : Prop :=
  ∀ e ∈ coalesced, regKey e.1 ≠ regKey r

theorem leaderFrom_of_isRoot {coalesced : List (MirRegisterRef × MirRegisterRef)}
    {r : MirRegisterRef} (h : IsRoot coalesced r) (n : ℕ) :
    leaderFrom coalesced n r = r := by
  cases n with
  | zero => rfl
  | succ n =>
    have hnone : coalesced.find? (fun entry => regKey entry.1 = regKey r) = none := by
      apply List.find?_eq_none.mpr
      intro e he
      simpa using h e he
    simp [leaderFrom, hnone]

/-- One more merge of two roots sends what stood for `v` to `u`. -/
theorem leaderFrom_cons {coalesced : List (MirRegisterRef × MirRegisterRef)}
    {v u : MirRegisterRef} (hv : IsRoot coalesced v) (hu : IsRoot coalesced u)
    (hne : regKey v ≠ regKey u) (n : ℕ) (r : MirRegisterRef)
    (hroot : IsRoot coalesced (leaderFrom coalesced n r)) :
    leaderFrom ((v, u) :: coalesced) (n + 1) r =
      if regKey (leaderFrom coalesced n r) = regKey v then u
      else leaderFrom coalesced n r := by
  have huRoot : IsRoot ((v, u) :: coalesced) u := by
    intro e he
    rcases List.mem_cons.mp he with rfl | he
    · exact hne
    · exact hu e he
  -- A root other than `v` stays one; `v` itself is sent to `u`.
  have hbase : ∀ (n : ℕ) (r : MirRegisterRef), IsRoot coalesced r →
      leaderFrom ((v, u) :: coalesced) (n + 1) r = if regKey r = regKey v then u else r := by
    intro n r hr
    by_cases hrv : regKey r = regKey v
    · have hstep : ¬ regKey u = regKey v := fun h => hne h.symm
      simp [leaderFrom, hrv, hstep, leaderFrom_of_isRoot huRoot]
    · have hroot' : IsRoot ((v, u) :: coalesced) r := by
        intro e he
        rcases List.mem_cons.mp he with rfl | he
        · exact fun h => hrv h.symm
        · exact hr e he
      rw [leaderFrom_of_isRoot hroot', if_neg hrv]
  induction n generalizing r with
  | zero => exact hbase 0 r hroot
  | succ n ih =>
    cases hfind : coalesced.find? (fun entry => regKey entry.1 = regKey r) with
    | none =>
      have hr : IsRoot coalesced r := by
        intro e he
        simpa using List.find?_eq_none.mp hfind e he
      rw [leaderFrom_of_isRoot hr, hbase (n + 1) r hr]
    | some e =>
      have hmem := List.mem_of_find?_eq_some hfind
      have hkey : regKey e.1 = regKey r := by
        simpa using List.find?_some hfind
      have hrv : ¬ regKey v = regKey r := by
        intro h
        exact hv e hmem (hkey.trans h.symm)
      have hleft : leaderFrom ((v, u) :: coalesced) (n + 1 + 1) r =
          if regKey e.2 = regKey r then r
          else leaderFrom ((v, u) :: coalesced) (n + 1) e.2 := by
        rw [leaderFrom]
        simp [hrv, hfind]
      have hright : leaderFrom coalesced (n + 1) r =
          if regKey e.2 = regKey r then r else leaderFrom coalesced n e.2 := by
        rw [leaderFrom]
        simp [hfind]
      rw [hright] at hroot
      rw [hleft, hright]
      by_cases hself : regKey e.2 = regKey r
      · rw [if_pos hself] at hroot
        exact absurd hkey (hroot e hmem)
      · rw [if_neg hself] at hroot ⊢
        rw [if_neg hself]
        exact ih e.2 hroot

section

variable {coalesced : List (MirRegisterRef × MirRegisterRef)} {n : ℕ} (h : Chained coalesced)
  (hn : coalesced.length ≤ n) (r : MirRegisterRef)
include h hn r

theorem isRoot_leaderFrom : IsRoot coalesced (leaderFrom coalesced n r) := by
  induction h generalizing n with
  | nil =>
    intro e he
    cases he
  | cons hchained hv hu hne ih =>
    cases n with
    | zero => simp at hn
    | succ n =>
      have hroot := ih (n := n) (by simpa using hn)
      rw [leaderFrom_cons hv hu hne n r hroot]
      split
      · intro e he
        rcases List.mem_cons.mp he with rfl | he
        · exact hne
        · exact hu e he
      · next hleader =>
          intro e he
          rcases List.mem_cons.mp he with rfl | he
          · exact fun heq => hleader heq.symm
          · exact hroot e he

/-- Following the map of merges is going through the merges one by one. -/
theorem regKey_leaderFrom : regKey (leaderFrom coalesced n r) = chase coalesced (regKey r) := by
  induction h generalizing n with
  | nil =>
    rw [leaderFrom_of_isRoot (by intro e he; cases he)]
    rfl
  | cons hchained hv hu hne ih =>
    cases n with
    | zero => simp at hn
    | succ n =>
      have hn' := Nat.le_of_succ_le_succ hn
      rw [leaderFrom_cons hv hu hne n r (isRoot_leaderFrom hchained hn' r), chase, ← ih hn']
      split <;> rfl

end

theorem leaderFrom_eq_or_mem (coalesced : List (MirRegisterRef × MirRegisterRef)) (n : ℕ)
    (r : MirRegisterRef) :
    leaderFrom coalesced n r = r ∨ ∃ e ∈ coalesced, leaderFrom coalesced n r = e.2 := by
  induction n generalizing r with
  | zero => exact .inl rfl
  | succ n ih =>
    unfold leaderFrom
    split
    · next e hfind =>
        split
        · exact .inl rfl
        · rcases ih e.2 with h | h
          · exact .inr ⟨e, List.mem_of_find?_eq_some hfind, h⟩
          · exact .inr h
    · exact .inl rfl

/-! ### Merging two nodes -/

section

variable {banks : ℕ → ℕ} {g : InterferenceGraph} {u v : MirRegisterRef}

theorem insert_nodes_of_isNode {r : MirRegisterRef} (h : g.IsNode (regKey r)) :
    insert regKey g.nodes r = g.nodes := by
  have hin : contains regKey g.nodes r = true := contains_iff.mpr h
  simp [KeyedSet.insert, hin]

@[simp] theorem adj_eraseNeighbor {r w : MirRegisterRef} {a b : RegKey} :
    (g.eraseNeighbor r w).Adj a b ↔ g.Adj a b ∧ ¬ (a = regKey r ∧ b = regKey w) := by
  unfold Adj eraseNeighbor
  by_cases ha : a = regKey r
  · simp [ha]
  · simp [ha]

@[simp] theorem adj_eraseNode {r : MirRegisterRef} {a b : RegKey} :
    (g.eraseNode r).Adj a b ↔ g.Adj a b ∧ a ≠ regKey r := by
  unfold Adj eraseNode
  by_cases ha : a = regKey r
  · simp [ha]
  · simp [ha]

theorem moveEdge_nodes (hu : g.IsNode (regKey u)) {w : MirRegisterRef}
    (hw : g.IsNode (regKey w)) : (moveEdge u v g w).nodes = g.nodes := by
  unfold moveEdge
  split
  · show insert regKey (insert regKey (insert regKey g.nodes u) w) w = g.nodes
    rw [insert_nodes_of_isNode hu, insert_nodes_of_isNode hw, insert_nodes_of_isNode hw]
  · rfl

theorem adj_moveEdge (huv : regKey u ≠ regKey v) {w : MirRegisterRef}
    (hwu : regKey w ≠ regKey u) (hwv : regKey w ≠ regKey v) {a b : RegKey} :
    (moveEdge u v g w).Adj a b ↔ g.Adj a b ∧ ¬ (a = regKey w ∧ b = regKey v) ∨
        a = regKey u ∧ b = regKey w ∨ a = regKey w ∧ b = regKey u := by
  unfold moveEdge
  rw [if_pos ⟨hwu, hwv⟩]
  simp only [adj_eraseNeighbor, adj_insertNeighbor]
  constructor
  · rintro ⟨(hadj | h) | h, hkeep⟩
    · exact .inl ⟨hadj, hkeep⟩
    · exact .inr (.inl h)
    · exact .inr (.inr h)
  · rintro (⟨hadj, hkeep⟩ | ⟨rfl, rfl⟩ | ⟨rfl, rfl⟩)
    · exact ⟨.inl (.inl hadj), hkeep⟩
    · exact ⟨.inl (.inr ⟨rfl, rfl⟩), fun h => hwu h.1.symm⟩
    · exact ⟨.inr ⟨rfl, rfl⟩, fun h => huv h.2⟩

/-- The edges behind moving those to the neighbours `ws` of `v`. -/
theorem adj_foldl_moveEdge (huv : regKey u ≠ regKey v) (hu : g.IsNode (regKey u))
    {ws : List MirRegisterRef}
    (hws : ∀ w ∈ ws, g.IsNode (regKey w) ∧ regKey w ≠ regKey u ∧ regKey w ≠ regKey v) :
    (ws.foldl (moveEdge u v) g).nodes = g.nodes ∧ ∀ a b, (ws.foldl (moveEdge u v) g).Adj a b ↔
        g.Adj a b ∧ ¬ (a ∈ keys regKey ws ∧ b = regKey v) ∨
          a = regKey u ∧ b ∈ keys regKey ws ∨ a ∈ keys regKey ws ∧ b = regKey u := by
  induction ws generalizing g with
  | nil => simp
  | cons w ws ih =>
    obtain ⟨hwNode, hwu, hwv⟩ := hws w List.mem_cons_self
    have hnodes := moveEdge_nodes (v := v) hu hwNode
    have hsame : ∀ {a}, (moveEdge u v g w).IsNode a ↔ g.IsNode a := by
      intro a
      unfold IsNode
      rw [hnodes]
    obtain ⟨hnodes', hadj⟩ := ih (g := moveEdge u v g w) (hsame.mpr hu) (by
      intro x hx
      obtain ⟨hxNode, hne⟩ := hws x (List.mem_cons_of_mem _ hx)
      exact ⟨hsame.mpr hxNode, hne⟩)
    constructor
    · rw [List.foldl_cons, hnodes', hnodes]
    · intro a b
      rw [List.foldl_cons, hadj, adj_moveEdge huv hwu hwv]
      simp only [keys_cons, List.mem_cons]
      grind

theorem neighbor_apart (h : GraphOk banks g) (hnot : ¬ g.Adj (regKey v) (regKey u)) :
    ∀ w ∈ g.neighbors (regKey v),
      g.IsNode (regKey w) ∧ regKey w ≠ regKey u ∧ regKey w ≠ regKey v := by
  intro w hw
  have hadj : g.Adj (regKey v) (regKey w) := key_mem hw
  refine ⟨h.isNode (h.symm hadj), ?_, ?_⟩
  · intro heq
    exact hnot (heq ▸ hadj)
  · intro heq
    exact h.irrefl _ (heq ▸ hadj)

theorem isNode_mergeNodes (h : GraphOk banks g) (huv : regKey u ≠ regKey v)
    (hu : g.IsNode (regKey u)) (hnot : ¬ g.Adj (regKey v) (regKey u)) :
    (g.mergeNodes u v).nodes = erase regKey g.nodes v := by
  have hnodes := (adj_foldl_moveEdge huv hu (neighbor_apart h hnot)).1
  show erase regKey (insert regKey _ u) v = erase regKey g.nodes v
  rw [hnodes, insert_nodes_of_isNode hu]

theorem mem_neighbors_mergeNodes {a : RegKey} {r : MirRegisterRef}
    (h : r ∈ (g.mergeNodes u v).neighbors a) :
    r = u ∨ ∃ b, r ∈ g.neighbors b := by
  have hmove :
      ∀ (ws : List MirRegisterRef) (g' : InterferenceGraph), (∀ w ∈ ws, ∃ b, w ∈ g.neighbors b) →
      (∀ a r, r ∈ g'.neighbors a → r = u ∨ ∃ b, r ∈ g.neighbors b) →
      ∀ a r, r ∈ (ws.foldl (moveEdge u v) g').neighbors a → r = u ∨ ∃ b, r ∈ g.neighbors b := by
    intro ws
    induction ws with
    | nil => exact fun g' _ h' => h'
    | cons w ws ih =>
      intro g' hws h'
      apply ih _ (fun x hx => hws x (List.mem_cons_of_mem _ hx))
      intro a r hr
      unfold moveEdge at hr
      split at hr
      · unfold eraseNeighbor at hr
        dsimp only at hr
        have hr' : r ∈ ((g'.insertNeighbor u w).insertNeighbor w u).neighbors a := by
          split at hr
          · exact mem_of_mem_erase hr
          · exact hr
        rcases mem_neighbors_insertNeighbor hr' with hr' | rfl
        · rcases mem_neighbors_insertNeighbor hr' with hr' | rfl
          · exact h' a r hr'
          · exact .inr (hws _ List.mem_cons_self)
        · exact .inl rfl
      · exact h' a r hr
  unfold mergeNodes eraseNode eraseNeighbor at h
  dsimp only at h
  split at h
  · cases h
  · apply hmove (g.neighbors (regKey v)) g (fun w hw => ⟨_, hw⟩) (fun a r hr => .inr ⟨a, hr⟩) a r
    split at h
    · exact mem_of_mem_erase h
    · exact h

/-- Behind the merge the edges are those of before, with `u` in the place of `v`. -/
theorem adj_mergeNodes (h : GraphOk banks g) (huv : regKey u ≠ regKey v)
    (hu : g.IsNode (regKey u)) (hnot : ¬ g.Adj (regKey v) (regKey u)) {a b : RegKey} :
    (g.mergeNodes u v).Adj a b ↔ a ≠ regKey v ∧ b ≠ regKey v ∧
      (g.Adj a b ∨ a = regKey u ∧ g.Adj (regKey v) b ∨ b = regKey u ∧ g.Adj (regKey v) a) := by
  have hadj := (adj_foldl_moveEdge huv hu (neighbor_apart h hnot)).2
  have hkeys : ∀ k, k ∈ keys regKey (g.neighbors (regKey v)) ↔ g.Adj (regKey v) k :=
    fun k => Iff.rfl
  have hsymm : ∀ k, g.Adj k (regKey v) → g.Adj (regKey v) k := fun k => h.symm
  unfold mergeNodes
  rw [adj_eraseNode, adj_eraseNeighbor, hadj, hkeys, hkeys]
  grind

theorem GraphOk.mergeNodes (h : GraphOk banks g) (huv : regKey u ≠ regKey v)
    (hbank : InBank banks u) (hu : g.IsNode (regKey u)) (hnot : ¬ g.Adj (regKey v) (regKey u)) :
    GraphOk banks (g.mergeNodes u v) where
  symm := by
    intro a b
    rw [adj_mergeNodes h huv hu hnot, adj_mergeNodes h huv hu hnot]
    rintro ⟨ha, hb, hadj | hadj | hadj⟩
    · exact ⟨hb, ha, .inl (h.symm hadj)⟩
    · exact ⟨hb, ha, .inr (.inr hadj)⟩
    · exact ⟨hb, ha, .inr (.inl hadj)⟩
  irrefl := by
    intro a
    rw [adj_mergeNodes h huv hu hnot]
    rintro ⟨_, _, hadj | ⟨rfl, hadj⟩ | ⟨rfl, hadj⟩⟩
    · exact h.irrefl a hadj
    · exact hnot hadj
    · exact hnot hadj
  isNode := by
    intro a b
    rw [adj_mergeNodes h huv hu hnot]
    rintro ⟨ha, _, hadj⟩
    unfold IsNode
    rw [isNode_mergeNodes h huv hu hnot]
    apply mem_keys_erase.mpr
    refine ⟨?_, ha⟩
    rcases hadj with hadj | ⟨rfl, _⟩ | ⟨_, hadj⟩
    · exact h.isNode hadj
    · exact hu
    · exact h.isNode (h.symm hadj)
  nodup := by
    rw [isNode_mergeNodes h huv hu hnot]
    exact nodup_keys_erase h.nodup
  inBank := by
    intro r hr
    rw [isNode_mergeNodes h huv hu hnot] at hr
    exact h.inBank r (mem_of_mem_erase hr)
  neighborInBank := by
    intro a r hr
    rcases mem_neighbors_mergeNodes hr with rfl | ⟨b, hr⟩
    · exact hbank
    · exact h.neighborInBank hr

/-! ### The invariant of coalescing -/

/-- No register the merge joins `u` to, over `v`, is an alias of `u`. -/
def AvoidsAliases (g : InterferenceGraph) (u v : MirRegisterRef) : Prop :=
  ∀ t, g.Adj (regKey v) t → ¬ Aliases (regKey u) t

/-- What holds at every moment of coalescing, starting from the graph `g₀`. -/
structure CoalesceInv (banks : ℕ → ℕ) (g₀ : InterferenceGraph)
    (ctx : RegisterAllocatorCtx) : Prop where
  graph : GraphOk banks ctx.iGraph
  chained : Chained ctx.coalescedRegs
  inBank : ∀ e ∈ ctx.coalescedRegs, InBank banks e.2
  isNode : ∀ {a}, g₀.IsNode a → ctx.iGraph.IsNode (chase ctx.coalescedRegs a)
  adj : ∀ {a b}, g₀.Adj a b → ctx.iGraph.Adj (chase ctx.coalescedRegs a) (chase ctx.coalescedRegs b)
  bank : ∀ a, bankOf banks (chase ctx.coalescedRegs a) = bankOf banks a
  physical : ∀ {a : RegKey}, a.isVirtual = false → chase ctx.coalescedRegs a = a

def KeepsNames (g₀ : InterferenceGraph) (ctx : RegisterAllocatorCtx) : Prop :=
  ∀ a b, g₀.Adj a b → (a.isVirtual = true ∨ b.isVirtual = true) →
    ¬ Aliases (chase ctx.coalescedRegs a) (chase ctx.coalescedRegs b)

/-- What merging takes for granted of the two registers. -/
structure Mergeable (banks : ℕ → ℕ) (ctx : RegisterAllocatorCtx)
    (u v : MirRegisterRef) : Prop where
  ne : regKey u ≠ regKey v
  virtual : v.isVirtual = true
  rootU : IsRoot ctx.coalescedRegs u
  rootV : IsRoot ctx.coalescedRegs v
  inBankU : InBank banks u
  inBankV : InBank banks v
  sameClass : u.regClass = v.regClass
  nodeU : ctx.iGraph.IsNode (regKey u)
  nodeV : ctx.iGraph.IsNode (regKey v)
  notAdj : ¬ ctx.iGraph.Adj (regKey v) (regKey u)

theorem Mergeable.bank {ctx : RegisterAllocatorCtx} (h : Mergeable banks ctx u v) :
    bankOf banks (regKey u) = bankOf banks (regKey v) := by
  obtain ⟨c, hc, hbank⟩ := h.inBankV h.virtual
  have hv : bankOf banks (regKey v) = some c.bank := by
    simp [regKey, h.virtual, bankOf, hbank]
  have hu : u.regClass = some c := h.sameClass.trans hc
  rw [hv]
  cases hvirtual : u.isVirtual with
  | true =>
    obtain ⟨c', hc', hbank'⟩ := h.inBankU hvirtual
    obtain rfl : c' = c := Option.some.inj (hc'.symm.trans hu)
    simp [regKey, hvirtual, bankOf, hbank']
  | false => simp [regKey, hvirtual, bankOf, hu]

/-- A merge keeps the invariant. -/
theorem CoalesceInv.merge {g₀ : InterferenceGraph} {ctx : RegisterAllocatorCtx}
    (h : CoalesceInv banks g₀ ctx) (hm : Mergeable banks ctx u v) :
    CoalesceInv banks g₀ (ctx.merge u v) := by
  have hvNot : ¬ (regKey u = regKey v) := hm.ne
  have hadj : ∀ {a b}, (ctx.merge u v).iGraph.Adj a b ↔ _ :=
    adj_mergeNodes h.graph hm.ne hm.nodeU hm.notAdj
  have hchase : ∀ a, chase (ctx.merge u v).coalescedRegs a =
      if chase ctx.coalescedRegs a = regKey v then regKey u
      else chase ctx.coalescedRegs a := fun a => rfl
  have hsymm : ∀ {a b}, ctx.iGraph.Adj a b → ctx.iGraph.Adj b a := h.graph.symm
  have hirrefl := h.graph.irrefl (regKey v)
  constructor
  case graph => exact h.graph.mergeNodes hm.ne hm.inBankU hm.nodeU hm.notAdj
  case chained => exact .cons h.chained hm.rootV hm.rootU hm.ne.symm
  case inBank =>
    intro e he
    rcases List.mem_cons.mp he with rfl | he
    · exact hm.inBankU
    · exact h.inBank e he
  case isNode =>
    intro a ha
    have hnode := h.isNode ha
    show _ ∈ keys regKey (ctx.iGraph.mergeNodes u v).nodes
    rw [isNode_mergeNodes h.graph hm.ne hm.nodeU hm.notAdj, mem_keys_erase, hchase]
    split
    · exact ⟨hm.nodeU, hm.ne⟩
    · next hne => exact ⟨hnode, hne⟩
  case adj =>
    intro a b hab
    have hold := h.adj hab
    rw [hchase, hchase, hadj]
    by_cases ha : chase ctx.coalescedRegs a = regKey v
    · have hb : chase ctx.coalescedRegs b ≠ regKey v := by
        intro hb
        rw [ha, hb] at hold
        exact hirrefl hold
      rw [if_pos ha, if_neg hb]
      exact ⟨hvNot, hb, .inr (.inl ⟨rfl, ha ▸ hold⟩)⟩
    · by_cases hb : chase ctx.coalescedRegs b = regKey v
      · rw [if_neg ha, if_pos hb]
        exact ⟨ha, hvNot, .inr (.inr ⟨rfl, hsymm (hb ▸ hold)⟩)⟩
      · rw [if_neg ha, if_neg hb]
        exact ⟨ha, hb, .inl hold⟩
  case bank =>
    intro a
    rw [hchase]
    split
    · next ha => rw [hm.bank, ← ha, h.bank a]
    · exact h.bank a
  case physical =>
    intro a ha
    rw [hchase, h.physical ha]
    split
    · next heq =>
        rw [heq, regKey_isVirtual, hm.virtual] at ha
        cases ha
    · rfl

theorem KeepsNames.merge {g₀ : InterferenceGraph} {ctx : RegisterAllocatorCtx}
    (h : KeepsNames g₀ ctx) (hinv : CoalesceInv banks g₀ ctx)
    (havoid : AvoidsAliases ctx.iGraph u v) : KeepsNames g₀ (ctx.merge u v) := by
  have hchase : ∀ a, chase (ctx.merge u v).coalescedRegs a =
      if chase ctx.coalescedRegs a = regKey v then regKey u
      else chase ctx.coalescedRegs a := fun a => rfl
  intro a b hab hvirtual
  have hold := hinv.adj hab
  rw [hchase, hchase]
  by_cases ha : chase ctx.coalescedRegs a = regKey v
  · have hb : chase ctx.coalescedRegs b ≠ regKey v := by
      intro hb
      rw [ha, hb] at hold
      exact hinv.graph.irrefl _ hold
    rw [if_pos ha, if_neg hb]
    exact havoid _ (ha ▸ hold)
  · by_cases hb : chase ctx.coalescedRegs b = regKey v
    · rw [if_neg ha, if_pos hb]
      intro halias
      exact havoid _ (hinv.graph.symm (hb ▸ hold)) halias.symm
    · rw [if_neg ha, if_neg hb]
      exact h a b hab hvirtual

end

/-! ### The loop -/

section

variable {target : TargetRegisters} {candidates : List (MirRegisterRef × MirRegisterRef)}

/-- A scan changes nothing but the affinities. -/
theorem nextMerge_fields (target : TargetRegisters)
    (candidates : List (MirRegisterRef × MirRegisterRef)) (ctx : RegisterAllocatorCtx) :
    (nextMerge target candidates ctx).1.iGraph = ctx.iGraph ∧
      (nextMerge target candidates ctx).1.coalescedRegs = ctx.coalescedRegs ∧
      (nextMerge target candidates ctx).1.reservedRegs = ctx.reservedRegs := by
  induction candidates generalizing ctx with
  | nil => exact ⟨rfl, rfl, rfl⟩
  | cons cand rest ih =>
    unfold nextMerge
    split
    · split
      · exact ⟨rfl, rfl, rfl⟩
      · exact ih _
    · exact ih ctx

theorem nextMerge_eligible {ctx ctx' : RegisterAllocatorCtx} {u v : MirRegisterRef}
    (h : nextMerge target candidates ctx = (ctx', some (u, v))) :
    isEligible ctx' u v = true ∧ ∃ cand ∈ candidates, (u, v) = leaderPair ctx' cand := by
  induction candidates generalizing ctx with
  | nil => cases h
  | cons cand rest ih =>
    unfold nextMerge at h
    split at h
    · next heligible =>
        split at h
        · obtain ⟨rfl, hpair⟩ := Prod.mk.inj h
          have hpair' := (Option.some.inj hpair).symm
          constructor
          · rw [← hpair'] at heligible
            exact heligible
          · exact ⟨cand, List.mem_cons_self, hpair'⟩
        · obtain ⟨hel, c, hc, hpair⟩ := ih h
          exact ⟨hel, c, List.mem_cons_of_mem _ hc, hpair⟩
    · obtain ⟨hel, c, hc, hpair⟩ := ih h
      exact ⟨hel, c, List.mem_cons_of_mem _ hc, hpair⟩

def MergesAvoidAliases (target : TargetRegisters)
    (candidates : List (MirRegisterRef × MirRegisterRef)) :
    ℕ → RegisterAllocatorCtx → Prop
  | 0, _ => True
  | n + 1, ctx =>
    match nextMerge target candidates ctx with
    | (ctx, some (u, v)) =>
      AvoidsAliases ctx.iGraph u v ∧ MergesAvoidAliases target candidates n (ctx.merge u v)
    | (_, none) => True

variable {banks : ℕ → ℕ} {g₀ : InterferenceGraph}

theorem CoalesceInv.of_fields {ctx ctx' : RegisterAllocatorCtx}
    (h : CoalesceInv banks g₀ ctx) (hgraph : ctx'.iGraph = ctx.iGraph)
    (hcoalesced : ctx'.coalescedRegs = ctx.coalescedRegs) : CoalesceInv banks g₀ ctx' := by
  constructor
  case graph => exact hgraph ▸ h.graph
  case chained => exact hcoalesced ▸ h.chained
  case inBank => exact hcoalesced ▸ h.inBank
  case isNode => rw [hgraph, hcoalesced]; exact h.isNode
  case adj => rw [hgraph, hcoalesced]; exact h.adj
  case bank => exact hcoalesced ▸ h.bank
  case physical => rw [hcoalesced]; exact h.physical

theorem CoalesceInv.mergeable {ctx : RegisterAllocatorCtx} (h : CoalesceInv banks g₀ ctx)
    {cand : MirRegisterRef × MirRegisterRef} (h1 : InBank banks cand.1)
    (h2 : InBank banks cand.2) {u v : MirRegisterRef}
    (hpair : (u, v) = leaderPair ctx cand)
    (heligible : isEligible ctx u v = true) : Mergeable banks ctx u v := by
  have hleader : ∀ r, InBank banks r → IsRoot ctx.coalescedRegs (ctx.getCoalescedLeader r) ∧
        InBank banks (ctx.getCoalescedLeader r) := by
    intro r hr
    constructor
    · exact isRoot_leaderFrom h.chained (Nat.le_refl _) r
    · rcases leaderFrom_eq_or_mem ctx.coalescedRegs ctx.coalescedRegs.length r with
        heq | ⟨e, he, heq⟩
      · unfold RegisterAllocatorCtx.getCoalescedLeader
        rw [heq]
        exact hr
      · unfold RegisterAllocatorCtx.getCoalescedLeader
        rw [heq]
        exact h.inBank e he
  obtain ⟨hroot1, hin1⟩ := hleader cand.1 h1
  obtain ⟨hroot2, hin2⟩ := hleader cand.2 h2
  unfold isEligible at heligible
  simp only [Bool.and_eq_true, Bool.or_eq_true, decide_eq_true_eq, Bool.not_eq_true',
    contains_iff, contains_eq_false] at heligible
  obtain ⟨⟨⟨⟨⟨⟨⟨⟨hne, hvirtual⟩, _⟩, _⟩, hclass⟩, hnodeU⟩, hnodeV⟩, _⟩, hnot⟩ := heligible
  unfold leaderPair orderPair at hpair
  split at hpair
  · next hswap =>
      obtain ⟨rfl, rfl⟩ := Prod.mk.inj hpair
      exact ⟨hne, hswap.1, hroot2, hroot1, hin2, hin1, hclass, hnodeU, hnodeV, hnot⟩
  · next hswap =>
      obtain ⟨rfl, rfl⟩ := Prod.mk.inj hpair
      refine ⟨hne, ?_, hroot1, hroot2, hin1, hin2, hclass, hnodeU, hnodeV, hnot⟩
      -- Not both are physical, and a physical one would have come first.
      rcases hvirtual with hu | hv
      · by_contra hv
        exact hswap ⟨hu, by simpa using hv⟩
      · exact hv

section

variable (hcandidates : ∀ cand ∈ candidates, InBank banks cand.1 ∧ InBank banks cand.2)
include hcandidates

theorem CoalesceInv.next {ctx ctx' : RegisterAllocatorCtx} (h : CoalesceInv banks g₀ ctx)
    {found : Option (MirRegisterRef × MirRegisterRef)}
    (hnext : nextMerge target candidates ctx = (ctx', found)) :
    CoalesceInv banks g₀ ctx' ∧ ctx'.coalescedRegs = ctx.coalescedRegs ∧
      ctx'.iGraph = ctx.iGraph ∧ ∀ u v, found = some (u, v) → Mergeable banks ctx' u v := by
  obtain ⟨hgraph, hcoalesced, _⟩ := nextMerge_fields target candidates ctx
  rw [hnext] at hgraph hcoalesced
  have h' := h.of_fields hgraph hcoalesced
  refine ⟨h', hcoalesced, hgraph, ?_⟩
  rintro u v rfl
  obtain ⟨heligible, cand, hcand, hpair⟩ := nextMerge_eligible hnext
  obtain ⟨h1, h2⟩ := hcandidates cand hcand
  exact h'.mergeable h1 h2 hpair heligible

/-- The loop keeps the invariant. -/
theorem CoalesceInv.coalesceLoop {n : ℕ} {ctx : RegisterAllocatorCtx}
    (h : CoalesceInv banks g₀ ctx) :
    CoalesceInv banks g₀ (coalesceLoop target candidates n ctx) := by
  induction n generalizing ctx with
  | zero => exact h
  | succ n ih =>
    unfold RegAlloc.coalesceLoop
    split
    · next ctx' u v hnext =>
        obtain ⟨h', _, _, hm⟩ := h.next hcandidates hnext
        exact ih (h'.merge (hm u v rfl))
    · next ctx' hnext => exact (h.next hcandidates hnext).1

theorem KeepsNames.coalesceLoop {n : ℕ} {ctx : RegisterAllocatorCtx} (h : KeepsNames g₀ ctx)
    (hinv : CoalesceInv banks g₀ ctx) (havoid : MergesAvoidAliases target candidates n ctx) :
    KeepsNames g₀ (coalesceLoop target candidates n ctx) := by
  induction n generalizing ctx with
  | zero => exact h
  | succ n ih =>
    unfold MergesAvoidAliases at havoid
    unfold RegAlloc.coalesceLoop
    cases hnext : nextMerge target candidates ctx with
    | mk ctx' found =>
      rw [hnext] at havoid
      obtain ⟨hinv', hcoalesced, _, hm⟩ := hinv.next hcandidates hnext
      have h' : KeepsNames g₀ ctx' := by
        intro a b hab hvirtual
        rw [hcoalesced]
        exact h a b hab hvirtual
      cases found with
      | none => exact h'
      | some pair =>
        exact ih (h'.merge hinv' havoid.1) (hinv'.merge (hm _ _ rfl)) havoid.2

end

end

end EzPacker.RegAlloc
