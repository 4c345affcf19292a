import EzPacker.RegAlloc.GraphFacts

/-!
# Where the edges of the interference graph come from

An edge stems from one instruction: one of its ends is defined there, or may be
overwritten by a call there, while the other is live behind it; or the instruction
copies its first source into one end before it reads the other. Conversely each of
these makes an edge.
-/

namespace EzPacker.RegAlloc

open List Mir KeyedSet InterferenceGraph

def clobbers (cc : Option CallingConvDesc) (inst : MirInstruction) : List MirRegisterRef :=
  match cc with
  | some cc => if isCall inst then cc.callerSavedRegs else []
  | none => []

/-- The registers may be of one bank; one without a class may be of any. -/
def SharesBank (banks : ℕ → ℕ) (a b : RegKey) : Prop :=
  bankOf banks a = bankOf banks b ∨ bankOf banks a = none ∨ bankOf banks b = none

/-- The instruction reads `b` behind the copy of its first source into `a`. -/
def ProtectsSource (inst : MirInstruction) (a b : RegKey) : Prop :=
  ∃ defReg srcReg, inst.getDefinedRegisters = [defReg] ∧ inst.operands.length ≥ 3 ∧
    .register srcReg ∈ inst.operands.drop 2 ∧ regKey defReg = a ∧ regKey srcReg = b

/-- The instruction makes an edge between `a`, which it writes, and `b`, where `live`
is what is live behind it. -/
def Joins (cc : Option CallingConvDesc) (banks : ℕ → ℕ) (live : RegKey → Prop)
    (inst : MirInstruction) (a b : RegKey) : Prop :=
  a ≠ b ∧ (a ∈ keys regKey (clobbers cc inst ++ inst.getDefinedRegisters) ∧ live b ∧
        SharesBank banks a b ∨
      ProtectsSource inst a b)

/-- An instruction of the block makes an edge between the two. -/
def JoinedIn (cc : Option CallingConvDesc) (banks : ℕ → ℕ) (liveOut : List MirRegisterRef)
    (instructions : List MirInstruction) (a b : RegKey) : Prop :=
  ∃ pre inst post, instructions = pre ++ inst :: post ∧
    (Joins cc banks (liveAt liveOut post) inst a b ∨ Joins cc banks (liveAt liveOut post) inst b a)

variable {x y : RegKey}

section

variable {banks : ℕ → ℕ} {cc : Option CallingConvDesc}

theorem bankOf_regKey {r : MirRegisterRef} (hr : InBank banks r) :
    bankOf banks (regKey r) = r.regClass.map MirRegisterClass.bank := by
  unfold regKey
  cases hvirtual : r.isVirtual with
  | true =>
    obtain ⟨c, hc, hbank⟩ := hr hvirtual
    simp [bankOf, hc, hbank]
  | false => simp [bankOf]

theorem mayShareBank_iff {a b : MirRegisterRef} (ha : InBank banks a) (hb : InBank banks b) :
    mayShareBank a b = true ↔ SharesBank banks (regKey a) (regKey b) := by
  unfold SharesBank mayShareBank
  rw [bankOf_regKey ha, bankOf_regKey hb]
  cases a.regClass with
  | none => simp
  | some c =>
    cases b.regClass with
    | none | some d => simp

/-! ### Edges of a step -/

/-- A fold of steps that each add edges for a reason. -/
theorem adj_of_foldl {α : Type*} {step : InterferenceGraph → α → InterferenceGraph}
    {x y : RegKey} {P : α → Prop} {as : List α} {g : InterferenceGraph}
    (hstep : ∀ g, ∀ a ∈ as, (step g a).Adj x y → g.Adj x y ∨ P a)
    (h : (as.foldl step g).Adj x y) : g.Adj x y ∨ ∃ a ∈ as, P a := by
  induction as generalizing g with
  | nil => exact .inl h
  | cons a as ih =>
    rcases ih (fun g b hb => hstep g b (mem_cons_of_mem a hb)) h with
      h' | ⟨b, hb, hP⟩
    · rcases hstep g a mem_cons_self h' with hg | hP
      · exact .inl hg
      · exact .inr ⟨a, mem_cons_self, hP⟩
    · exact .inr ⟨b, mem_cons_of_mem a hb, hP⟩

variable {g : InterferenceGraph} {inst : MirInstruction}

theorem adj_of_connect {a b : MirRegisterRef} (h : (g.connect a b).Adj x y) :
    g.Adj x y ∨ x = regKey a ∧ y = regKey b ∨ x = regKey b ∧ y = regKey a := by
  unfold connect at h
  split at h
  · exact .inl h
  · simp only [adj_insertNeighbor, adj_addNode] at h
    tauto

theorem adj_of_interfere {live : List MirRegisterRef} {r : MirRegisterRef}
    (h : (interfere live g r).Adj x y) :
    g.Adj x y ∨ ∃ l ∈ live, regKey r ≠ regKey l ∧ mayShareBank r l = true ∧
      (x = regKey r ∧ y = regKey l ∨ x = regKey l ∧ y = regKey r) := by
  refine adj_of_foldl (g := g.addNode r) ?_ h
  intro g' l _ h'
  split at h'
  · next hcond =>
      rcases adj_of_connect h' with hg | hends
      · exact .inl hg
      · exact .inr ⟨hcond.1, hcond.2, hends⟩
  · exact .inl h'

theorem adj_of_protectSources (h : (protectSources g inst).Adj x y) :
    g.Adj x y ∨ x ≠ y ∧ (ProtectsSource inst x y ∨ ProtectsSource inst y x) := by
  unfold protectSources at h
  split at h
  · next defReg hdefs =>
      split at h
      · next hlength =>
          have hends := adj_of_foldl (P := fun operand => ∃ srcReg,
            operand = .register srcReg ∧ regKey defReg ≠ regKey srcReg ∧
              (x = regKey defReg ∧ y = regKey srcReg ∨ x = regKey srcReg ∧ y = regKey defReg)) ?_ h
          · rcases hends with hg | ⟨operand, hoperand, srcReg, rfl, hne, hends⟩
            · exact .inl hg
            · right
              rcases hends with ⟨rfl, rfl⟩ | ⟨rfl, rfl⟩
              · exact ⟨hne, .inl ⟨defReg, srcReg, hdefs, hlength, hoperand, rfl, rfl⟩⟩
              · exact ⟨hne.symm, .inr ⟨defReg, srcReg, hdefs, hlength, hoperand, rfl, rfl⟩⟩
          · intro g' operand _ h'
            cases operand with
            | register srcReg =>
              dsimp only at h'
              split at h'
              · next hne =>
                  rcases adj_of_connect h' with hg | hends
                  · exact .inl hg
                  · exact .inr ⟨srcReg, rfl, hne, hends⟩
              · exact .inl h'
            | _ => exact .inl h'
      · exact .inl h
  · exact .inl h

theorem adj_protectSources (hne : x ≠ y) (h : ProtectsSource inst x y) :
    (protectSources g inst).Adj x y := by
  obtain ⟨defReg, srcReg, hdefs, hlength, hoperand, rfl, rfl⟩ := h
  obtain ⟨before, after, hsplit⟩ := append_of_mem hoperand
  unfold protectSources
  rw [hdefs]
  dsimp only
  rw [if_pos hlength, hsplit, foldl_append, foldl_cons]
  refine (Extends.foldl ?_ after _).adj ?_
  · intro g' operand
    split
    · split
      · exact connect_extends _ _ _
      · exact Extends.refl _
    · exact Extends.refl _
  · dsimp only
    rw [if_pos hne]
    exact adj_connect _ defReg srcReg

/-! ### Edges of an instruction -/

theorem adj_of_foldl_interfere {live rs : List MirRegisterRef}
    (h : (rs.foldl (interfere live) g).Adj x y) :
    g.Adj x y ∨ ∃ r ∈ rs, ∃ l ∈ live, regKey r ≠ regKey l ∧ mayShareBank r l = true ∧
      (x = regKey r ∧ y = regKey l ∨ x = regKey l ∧ y = regKey r) :=
  adj_of_foldl (fun _ _ _ h' => adj_of_interfere h') h

/-- The registers that `visitInstruction` joins to what is live. -/
theorem clobbers_inBank (cc : Option CallingConvDesc)
    (hrefs : ∀ r ∈ instRefs inst, InBank banks r) :
    ∀ r ∈ clobbers cc inst ++ inst.getDefinedRegisters, InBank banks r := by
  intro r hr
  rcases mem_append.mp hr with hr | hr
  · intro hvirtual
    cases cc with
    | none => cases hr
    | some cc =>
      unfold clobbers at hr
      dsimp only at hr
      split at hr
      · rw [cc.callerSaved_physical r hr] at hvirtual
        cases hvirtual
      · cases hr
  · exact hrefs r (defined_mem_instRefs hr)

theorem visitInstruction_graph (cc : Option CallingConvDesc) (inst : MirInstruction)
    (s : InterferenceGraph × List MirRegisterRef) :
    (visitInstruction cc inst s).1 = inst.getUsedRegisters.foldl addNode (protectSources
        ((clobbers cc inst ++ inst.getDefinedRegisters).foldl (interfere s.2) s.1) inst) := by
  rw [foldl_append]
  rfl

/-- An instruction adds the edges of what it joins, and no others. -/
theorem adj_visitInstruction_iff {inst : MirInstruction}
    {s : InterferenceGraph × List MirRegisterRef} {x y : RegKey}
    (hok : GraphOk banks s.1) (hlive : ∀ l ∈ s.2, InBank banks l)
    (hrefs : ∀ r ∈ instRefs inst, InBank banks r) :
    (visitInstruction cc inst s).1.Adj x y ↔
      s.1.Adj x y ∨ Joins cc banks (· ∈ keys regKey s.2) inst x y ∨
        Joins cc banks (· ∈ keys regKey s.2) inst y x := by
  have hwritten := clobbers_inBank cc hrefs
  have hok' := (hok.visitInstruction cc hlive hrefs).1
  constructor
  · intro h
    rw [visitInstruction_graph] at h
    have huses : ∀ (rs : List MirRegisterRef) (g : InterferenceGraph),
        (rs.foldl addNode g).Adj x y → g.Adj x y := by
      intro rs g h'
      rcases @adj_of_foldl _ addNode _ _ (fun _ => False) _ _
        (fun _ _ _ h'' => .inl h'') h' with hg | ⟨_, _, hfalse⟩
      · exact hg
      · exact hfalse.elim
    rcases adj_of_protectSources (huses _ _ h) with h' | ⟨hne, hxy | hyx⟩
    · rcases adj_of_foldl_interfere h' with hg | ⟨r, hr, l, hl, hne, hbank, hends⟩
      · exact .inl hg
      · have hshare := (mayShareBank_iff (hwritten r hr) (hlive l hl)).mp hbank
        right
        rcases hends with ⟨rfl, rfl⟩ | ⟨rfl, rfl⟩
        · exact .inl ⟨hne, .inl ⟨key_mem hr, key_mem hl, hshare⟩⟩
        · exact .inr ⟨hne, .inl ⟨key_mem hr, key_mem hl, hshare⟩⟩
    · exact .inr (.inl ⟨hne, .inr hxy⟩)
    · exact .inr (.inr ⟨hne.symm, .inr hyx⟩)
  · have hjoins : ∀ {a b}, Joins cc banks (· ∈ keys regKey s.2) inst a b →
        (visitInstruction cc inst s).1.Adj a b := by
      rintro a b ⟨hne, ⟨ha, hb, hshare⟩ | hsource⟩
      · obtain ⟨r, hr, rfl⟩ := mem_keys.mp ha
        obtain ⟨l, hl, rfl⟩ := mem_keys.mp hb
        have hbank := (mayShareBank_iff (hwritten r hr) (hlive l hl)).mpr hshare
        rw [visitInstruction_graph]
        apply (Extends.foldl addNode_extends _ _).adj
        apply (protectSources_extends _ inst).adj
        exact foldl_interfere_adj hr hl hne hbank
      · rw [visitInstruction_graph]
        apply (Extends.foldl addNode_extends _ _).adj
        exact adj_protectSources hne hsource
    rintro (h | h | h)
    · exact (visitInstruction_extends cc inst s).adj h
    · exact hjoins h
    · exact hok'.symm (hjoins h)

/-! ### Edges of a block and of a function -/

theorem adj_foldr_iff {liveOut : List MirRegisterRef} (hok : GraphOk banks g)
    (hout : ∀ l ∈ liveOut, InBank banks l) {instructions : List MirInstruction}
    (hrefs : ∀ inst ∈ instructions, ∀ r ∈ instRefs inst, InBank banks r) :
    (instructions.foldr (visitInstruction cc) (g, liveOut)).1.Adj x y ↔
      g.Adj x y ∨ JoinedIn cc banks liveOut instructions x y := by
  induction instructions with
  | nil => simp [JoinedIn]
  | cons inst instructions ih =>
    have htail := fun i hi => hrefs i (mem_cons_of_mem inst hi)
    obtain ⟨hok', hlive', hkeys⟩ := foldr_visitInstruction cc hok hout htail
    have hlive : (fun k => k ∈ keys regKey
        (instructions.foldr (visitInstruction cc) (g, liveOut)).2) =
          liveAt liveOut instructions := funext fun k => propext (hkeys k)
    rw [foldr_cons, adj_visitInstruction_iff hok' hlive' (hrefs inst mem_cons_self),
      ih htail, hlive]
    constructor
    · rintro ((h | ⟨pre, i, post, rfl, h⟩) | h)
      · exact .inl h
      · exact .inr ⟨inst :: pre, i, post, rfl, h⟩
      · exact .inr ⟨[], inst, instructions, rfl, h⟩
    · rintro (h | ⟨pre, i, post, hsplit, h⟩)
      · exact .inl (.inl h)
      · cases pre with
        | nil =>
          obtain ⟨rfl, rfl⟩ := cons.inj hsplit
          exact .inr h
        | cons j pre =>
          obtain ⟨rfl, rfl⟩ := cons.inj hsplit
          exact .inl (.inr ⟨pre, i, post, rfl, h⟩)

theorem adj_visitBlock_iff {liveOut : ℕ → List MirRegisterRef} {g : InterferenceGraph}
    (hok : GraphOk banks g) {b : MirBlock} (hout : ∀ l ∈ liveOut b.id, InBank banks l)
    (hrefs : ∀ inst ∈ b.instructions, ∀ r ∈ instRefs inst, InBank banks r) {x y : RegKey} :
    (visitBlock cc liveOut g b).Adj x y ↔
      g.Adj x y ∨ JoinedIn cc banks (liveOut b.id) b.instructions x y := by
  have hnodes : GraphOk banks ((liveOut b.id).foldl addNode g) := by
    apply foldl_keeps (P := GraphOk banks) _ hok
    intro g' l hl h'
    exact h'.addNode (hout l hl)
  have hadj : ((liveOut b.id).foldl addNode g).Adj x y ↔ g.Adj x y := by
    constructor
    · intro h
      rcases @adj_of_foldl _ addNode _ _ (fun _ => False) _ _
        (fun _ _ _ h' => .inl h') h with hg | ⟨_, _, hfalse⟩
      · exact hg
      · exact hfalse.elim
    · exact (Extends.foldl addNode_extends _ _).adj
  unfold visitBlock
  rw [adj_foldr_iff hnodes hout hrefs, hadj]

end

theorem adj_interferenceGraph_iff (cc : Option CallingConvDesc) {f : SelectedFunction}
    {liveness : LivenessResult f} : (interferenceGraph cc f liveness).Adj x y ↔
      ∃ b ∈ f.blocks, JoinedIn cc f.banks (liveness.liveOut b.id) b.instructions x y := by
  have hblocks : ∀ (bs : List MirBlock) (g : InterferenceGraph), GraphOk f.banks g →
      (∀ b ∈ bs, b ∈ f.blocks) →
      ((bs.foldl (visitBlock cc liveness.liveOut) g).Adj x y ↔ g.Adj x y ∨ ∃ b ∈ bs,
          JoinedIn cc f.banks (liveness.liveOut b.id) b.instructions x y) := by
    intro bs
    induction bs with
    | nil => simp
    | cons b bs ih =>
      intro g hok hbs
      have hrefs := f.inBank b (hbs b mem_cons_self)
      rw [foldl_cons, ih _ (hok.visitBlock (liveness.inBank b.id) hrefs)
        (fun b' hb' => hbs b' (mem_cons_of_mem b hb')),
        adj_visitBlock_iff hok (liveness.inBank b.id) hrefs, exists_mem_cons_iff,
        or_assoc]
  have hempty : ¬ InterferenceGraph.empty.Adj x y := by
    intro h
    cases h
  unfold interferenceGraph
  rw [hblocks f.blocks _ GraphOk.empty (fun b hb => hb)]
  simp [hempty]

end EzPacker.RegAlloc
