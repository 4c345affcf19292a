import EzPacker.Lib.BackwardFlow
import EzPacker.Liveness.DenseBitSet

/-!
# Path-based liveness

The loop over the bit sets is the visiting of nodes of a backward flow, so that it ends
and leaves what the paths of the graph say, whatever the order of the blocks.
-/

namespace EzPacker.Liveness

open DenseBitSet List Function Mir KeyedSet
open RegAlloc (MirBlock RegKey regKey)

def blockFlow (f : MirFunction) (getSuccessors : ℕ → List ℕ) : BackwardFlow MirBlock RegKey where
  succ b c := c ∈ f.blocks ∧ c.id ∈ getSuccessors b.id
  gen b := {k | UpwardExposed b k}
  kill b := {k | Defines b k}

variable {getSuccessors : ℕ → List ℕ}

namespace LivenessAnalysisPass

section

variable {numBlocks numWords : ℕ} (eqs : Equations numBlocks)

def setBits (numWords : ℕ) (bits : DenseBitSet) : Set (Fin (64 * numWords)) :=
  {k | bits.test k = true}

theorem setBits_injective {a b : DenseBitSet} (ha : a.words.length = numWords)
    (hb : b.words.length = numWords) (h : setBits numWords a = setBits numWords b) : a = b := by
  refine ext_test (ha.trans hb.symm) fun bit hbit => ?_
  have hlt : bit < 64 * numWords := by
    rw [← ha]
    exact hbit
  exact Bool.eq_iff_iff.mpr (Set.ext_iff.mp h ⟨bit, hlt⟩)

def bitFlow (numWords : ℕ) : BackwardFlow (Fin numBlocks) (Fin (64 * numWords)) where
  succ i j := j ∈ eqs.denseSuccessors i
  gen i := setBits numWords (eqs.useBits i)
  kill i := setBits numWords (eqs.defBits i)

/-- The bits that are set. -/
def facts (numWords : ℕ) (s : LiveBits numBlocks) :
    BackwardFlow.Facts (Fin numBlocks) (Fin (64 * numWords)) :=
  (fun i => setBits numWords (s.liveIn i), fun i => setBits numWords (s.liveOut i))

/-- Every bit set has `numWords` words. -/
structure Sized (numWords : ℕ) (s : LiveBits numBlocks) : Prop where
  liveIn : ∀ i, (s.liveIn i).words.length = numWords
  liveOut : ∀ i, (s.liveOut i).words.length = numWords

structure SizedEquations (numWords : ℕ) : Prop where
  useBits : ∀ i, (eqs.useBits i).words.length = numWords
  defBits : ∀ i, (eqs.defBits i).words.length = numWords

variable {s : LiveBits numBlocks}

theorem facts_injective {t : LiveBits numBlocks} (hs : Sized numWords s) (ht : Sized numWords t)
    (h : facts numWords s = facts numWords t) : s = t := by
  obtain ⟨hinto, hout⟩ := Prod.ext_iff.mp h
  ext1
  · exact funext fun i => setBits_injective (hs.liveIn i) (ht.liveIn i) (congrFun hinto i)
  · exact funext fun i => setBits_injective (hs.liveOut i) (ht.liveOut i) (congrFun hout i)

/-! ### A visit -/

theorem unionSuccessors_spec {liveIn : Fin numBlocks → DenseBitSet}
    (hin : ∀ i, (liveIn i).words.length = numWords) (successors : List (Fin numBlocks))
    (out : DenseBitSet × Bool) (hout : out.1.words.length = numWords) :
    (unionSuccessors liveIn successors out).1.words.length = numWords ∧
      (∀ bit, (unionSuccessors liveIn successors out).1.test bit = true ↔
        out.1.test bit = true ∨ ∃ j ∈ successors, (liveIn j).test bit = true) ∧
      ((unionSuccessors liveIn successors out).2 = true ↔
        out.2 = true ∨ (unionSuccessors liveIn successors out).1 ≠ out.1) := by
  unfold unionSuccessors
  induction successors generalizing out with
  | nil => simp [hout]
  | cons j successors ih =>
    have hlen := hout.trans (hin j).symm
    have hstep : ((out.1.unionWith (liveIn j)).1.words.length = numWords) :=
      (length_unionWith hlen).trans hout
    obtain ⟨hlen', htest, hchanged⟩ := ih (unionSuccessor liveIn out j) hstep
    have htestUnion := test_unionWith hlen
    rw [foldl_cons]
    refine ⟨hlen', fun bit => ?_, ?_⟩
    · rw [htest, unionSuccessor, htestUnion, Bool.or_eq_true, exists_mem_cons_iff, or_assoc]
    · generalize successors.foldl (unionSuccessor liveIn) (unionSuccessor liveIn out j) = final
        at htest hchanged ⊢
      rw [hchanged, unionSuccessor, Bool.or_eq_true, unionWith_changed hlen, or_assoc]
      refine or_congr_right ?_
      by_cases heq : (out.1.unionWith (liveIn j)).1 = out.1
      · rw [heq]
        simp
      · -- a bit that the first union has set is still set at the end
        refine iff_of_true (Or.inl heq) fun hfinal => heq ?_
        refine ext_test (length_unionWith hlen) fun bit _ => ?_
        rw [Bool.eq_iff_iff]
        constructor
        · intro hbit
          rw [← hfinal]
          exact (htest bit).mpr (Or.inl hbit)
        · intro hbit
          rw [htestUnion, hbit, Bool.true_or]

variable {eqs}

theorem visitBlock_spec (heqs : SizedEquations eqs numWords)
    (hs : Sized numWords s) (changed : Bool) (i : Fin numBlocks) :
    Sized numWords (visitBlock eqs (s, changed) i).1 ∧
      facts numWords (visitBlock eqs (s, changed) i).1 =
        (bitFlow eqs numWords).visit (facts numWords s) i ∧
      ((visitBlock eqs (s, changed) i).2 = true ↔
        changed = true ∨ (visitBlock eqs (s, changed) i).1 ≠ s) := by
  obtain ⟨hlenOut, htestOut, hchangedOut⟩ := unionSuccessors_spec hs.liveIn
    (eqs.denseSuccessors i) (s.liveOut i, changed) (hs.liveOut i)
  unfold visitBlock
  simp only []
  generalize unionSuccessors s.liveIn (eqs.denseSuccessors i) (s.liveOut i, changed) = out
    at hlenOut htestOut hchangedOut ⊢
  have huse := (hs.liveIn i).trans (heqs.useBits i).symm
  have hout := (hs.liveIn i).trans hlenOut.symm
  have hdef := (hs.liveIn i).trans (heqs.defBits i).symm
  have hlenIn := (length_computeLiveIn huse hout hdef).trans (hs.liveIn i)
  have htestIn := test_computeLiveIn huse hout hdef
  have hchangedIn := computeLiveIn_changed huse hout hdef
  generalize (s.liveIn i).computeLiveIn (eqs.useBits i) out.1 (eqs.defBits i) = into
    at hlenIn htestIn hchangedIn ⊢
  refine ⟨⟨fun j => ?_, fun j => ?_⟩, ?_, ?_⟩
  · by_cases hji : j = i
    · subst hji
      simpa using hlenIn
    · simpa [hji] using hs.liveIn j
  · by_cases hji : j = i
    · subst hji
      simpa using hlenOut
    · simpa [hji] using hs.liveOut j
  · have hcollected : (bitFlow eqs numWords).collected i (facts numWords s) =
        setBits numWords out.1 := by
      ext k
      exact (htestOut k).symm
    have hinto : (bitFlow eqs numWords).gen i ∪
        (setBits numWords out.1 \ (bitFlow eqs numWords).kill i) = setBits numWords into.1 := by
      ext k
      simp [setBits, bitFlow, htestIn]
    unfold BackwardFlow.visit
    rw [hcollected, hinto]
    refine Prod.ext (funext fun j => ?_) (funext fun j => ?_) <;>
      by_cases hji : j = i
    · subst hji
      simp [facts]
    · simp [facts, hji]
    · subst hji
      simp [facts]
    · simp [facts, hji]
  · have hupdate : LiveBits.mk (update s.liveIn i into.1)
        (update s.liveOut i out.1) ≠ s ↔ into.1 ≠ s.liveIn i ∨ out.1 ≠ s.liveOut i := by
      rw [Ne, LiveBits.ext_iff, not_and_or, update_eq_self_iff, update_eq_self_iff]
    rw [Bool.or_eq_true, hchangedOut, hchangedIn, or_assoc, hupdate, or_comm (a := out.1 ≠ _)]

/-! ### Rounds -/

theorem foldl_visitBlock_spec (heqs : SizedEquations eqs numWords) (order : List (Fin numBlocks))
    (hs : Sized numWords s)
    (hsound : (bitFlow eqs numWords).Sound (facts numWords s)) (changed : Bool) :
    Sized numWords (order.foldl (visitBlock eqs) (s, changed)).1 ∧
      facts numWords (order.foldl (visitBlock eqs) (s, changed)).1 =
        (bitFlow eqs numWords).round order (facts numWords s) ∧
      ((order.foldl (visitBlock eqs) (s, changed)).2 = true ↔
        changed = true ∨ (order.foldl (visitBlock eqs) (s, changed)).1 ≠ s) := by
  induction order generalizing s changed with
  | nil => simp [hs, BackwardFlow.round]
  | cons i order ih =>
    obtain ⟨hsized, hfacts, hchanged⟩ := visitBlock_spec heqs hs changed i
    have hvisit := hsound.visit i
    have hle := hsound.le_visit i
    rw [← hfacts] at hvisit hle
    obtain ⟨hsized', hfacts', hchanged'⟩ := ih hsized hvisit (visitBlock eqs (s, changed) i).2
    have hgrows := hvisit.le_round order
    rw [← hfacts'] at hgrows
    rw [foldl_cons]
    generalize order.foldl (visitBlock eqs) (visitBlock eqs (s, changed) i) = final
      at hsized' hfacts' hchanged' hgrows ⊢
    refine ⟨hsized', ?_, ?_⟩
    · rw [hfacts', hfacts]
      rfl
    · rw [hchanged', hchanged, or_assoc]
      refine or_congr_right ?_
      by_cases heq : (visitBlock eqs (s, changed) i).1 = s
      · rw [heq]
        simp
      · -- facts that the first visit has found are still there at the end
        refine iff_of_true (Or.inl heq) fun hfinal => heq ?_
        refine facts_injective hsized hs (le_antisymm ?_ hle)
        rwa [hfinal] at hgrows

theorem solve_spec (heqs : SizedEquations eqs numWords) (order : List (Fin numBlocks))
    (hs : Sized numWords s)
    (hsound : (bitFlow eqs numWords).Sound (facts numWords s)) {fuel : ℕ}
    (hfuel : 2 * (numBlocks * (64 * numWords)) < fuel + (facts numWords s).size) :
    ∃ r, solve eqs order fuel s = some r ∧ (bitFlow eqs numWords).Sound (facts numWords r) ∧
      (bitFlow eqs numWords).round order (facts numWords r) = facts numWords r := by
  induction fuel generalizing s with
  | zero =>
    have hsize := (facts numWords s).size_le
    rw [Nat.card_fin, Nat.card_fin] at hsize
    omega
  | succ fuel ih =>
    obtain ⟨hsized, hfacts, hchanged⟩ := foldl_visitBlock_spec heqs order hs hsound false
    unfold solve round
    generalize order.foldl (visitBlock eqs) (s, false) = r at hsized hfacts hchanged ⊢
    simp only [Bool.false_eq_true, false_or] at hchanged
    have hle := hsound.le_round order
    have hsound' := hsound.round order
    rw [← hfacts] at hle hsound'
    by_cases heq : r.1 = s
    · have hfalse : ¬ r.2 = true := fun htrue => hchanged.mp htrue heq
      refine ⟨r.1, if_neg hfalse, hsound', ?_⟩
      rw [heq] at hfacts ⊢
      exact hfacts.symm
    · have hlt : facts numWords s < facts numWords r.1 := by
        refine lt_of_le_of_ne hle fun hfacts_eq => heq ?_
        exact facts_injective hsized hs hfacts_eq.symm
      have hsize := BackwardFlow.Facts.size_lt_of_lt hlt
      obtain ⟨final, hfinal, hrest⟩ := ih hsized hsound' (by omega)
      refine ⟨final, ?_, hrest⟩
      simp only []
      rw [if_pos (hchanged.mpr heq), hfinal]

end

/-! ### Registers -/

theorem blockIdToDenseIdx_eq_some_iff (f : MirFunction) (id : ℕ) (i : Fin f.blocks.length) :
    blockIdToDenseIdx f id = some i ↔ (f.blocks.get i).id = id := by
  unfold blockIdToDenseIdx
  rw [findFinIdx?_eq_some_iff]
  constructor
  · rintro ⟨hid, -⟩
    simpa using hid
  · intro hid
    refine ⟨by simpa using hid, fun j hj => ?_⟩
    have hne : (f.blocks.get j).id ≠ (f.blocks.get i).id := by
      intro heq
      have hi : (i : ℕ) < (f.blocks.map MirBlock.id).length := by simp
      have hj' : (j : ℕ) < (f.blocks.map MirBlock.id).length := by simp
      have hids : (f.blocks.map MirBlock.id)[(j : ℕ)] = (f.blocks.map MirBlock.id)[(i : ℕ)] := by
        simpa using heq
      exact absurd (Fin.ext (f.nodup.getElem_inj_iff.mp hids)) hj.ne
    simpa [← hid] using hne

theorem mem_denseSuccessors (f : MirFunction) (getSuccessors : ℕ → List ℕ)
    (i j : Fin f.blocks.length) :
    j ∈ (equations f getSuccessors).denseSuccessors i ↔
      (f.blocks.get j).id ∈ getSuccessors (f.blocks.get i).id := by
  simp only [equations, mem_filterMap, blockIdToDenseIdx_eq_some_iff]
  constructor
  · rintro ⟨id, hid, rfl⟩
    exact hid
  · intro hid
    exact ⟨_, hid, rfl⟩

/-- The words of a bit set of a function. -/
def numWords (f : MirFunction) : ℕ := ((globalRegUniverse f).length + 63) / 64

theorem sizedEquations (f : MirFunction) (getSuccessors : ℕ → List ℕ) :
    SizedEquations (equations f getSuccessors) (numWords f) :=
  ⟨fun _ => length_globalBits (globalRegUniverse_spec f).1 _,
    fun _ => length_globalBits (globalRegUniverse_spec f).1 _⟩

theorem noBits_sized (f : MirFunction) : Sized (numWords f) (noBits f) :=
  ⟨fun _ => length_new _, fun _ => length_new _⟩

theorem facts_noBits (f : MirFunction) :
    facts (numWords f) (noBits f) = (fun _ => ∅, fun _ => ∅) := by
  have hempty : setBits (numWords f) (.new (globalRegUniverse f).length) = ∅ := by
    ext k
    simp [setBits, test_new]
  exact Prod.ext (funext fun _ => hempty) (funext fun _ => hempty)

section

variable (f : MirFunction) (getSuccessors : ℕ → List ℕ)

theorem blockFlow_succ_iff (i : Fin f.blocks.length) (c : MirBlock) :
    (blockFlow f getSuccessors).succ (f.blocks.get i) c ↔
      ∃ j, (bitFlow (equations f getSuccessors) (numWords f)).succ i j ∧ f.blocks.get j = c := by
  constructor
  · rintro ⟨hc, hid⟩
    obtain ⟨j, hj, rfl⟩ := getElem_of_mem hc
    exact ⟨⟨j, hj⟩, (mem_denseSuccessors f getSuccessors i ⟨j, hj⟩).mpr hid, rfl⟩
  · rintro ⟨j, hj, rfl⟩
    exact ⟨getElem_mem _, (mem_denseSuccessors f getSuccessors i j).mp hj⟩

variable {f getSuccessors} {k : Fin (64 * numWords f)} {reg : MirRegisterRef}
  (hreg : (globalRegUniverse f)[(k : ℕ)]? = some reg)

include hreg

theorem mem_setBits_iff (regs : List MirRegisterRef) :
    k ∈ setBits (numWords f) (globalBits (globalRegUniverse f) regs) ↔
      regKey reg ∈ keys regKey regs := by
  have htest := test_globalBits (globalRegUniverse_spec f).1 regs k
  rw [hreg] at htest
  simpa [setBits] using htest

theorem liveIn_bit_iff (i : Fin f.blocks.length) :
    (bitFlow (equations f getSuccessors) (numWords f)).LiveIn k i ↔
      (blockFlow f getSuccessors).LiveIn (regKey reg) (f.blocks.get i) :=
  BackwardFlow.liveIn_map f.blocks.get (blockFlow_succ_iff f getSuccessors)
    (fun _ => (mem_setBits_iff hreg _).trans (mem_useSet_iff _ _))
    (fun _ => (mem_setBits_iff hreg _).trans (mem_defSet_iff _ _)) i

theorem liveOut_bit_iff (i : Fin f.blocks.length) :
    (bitFlow (equations f getSuccessors) (numWords f)).LiveOut k i ↔
      (blockFlow f getSuccessors).LiveOut (regKey reg) (f.blocks.get i) :=
  BackwardFlow.liveOut_map f.blocks.get (blockFlow_succ_iff f getSuccessors)
    (fun _ => (mem_setBits_iff hreg _).trans (mem_useSet_iff _ _))
    (fun _ => (mem_setBits_iff hreg _).trans (mem_defSet_iff _ _)) i

end

theorem exists_bit_of_liveIn {f : MirFunction} {b : MirBlock} (hb : b ∈ f.blocks) {r : RegKey}
    (h : (blockFlow f getSuccessors).LiveIn r b) : r ∈ keys regKey (globalRegUniverse f) := by
  obtain ⟨c, hpath, hc⟩ := h
  refine (globalRegUniverse_spec f).2 c ?_ r hc
  cases hpath with
  | refl => exact hb
  | tail _ hstep => exact hstep.2.1

theorem mem_registersOf (globals : List MirRegisterRef) (bits : DenseBitSet) (r : RegKey) :
    r ∈ keys regKey (registersOf globals bits) ↔
      ∃ idx reg, globals[idx]? = some reg ∧ regKey reg = r ∧ bits.test idx = true := by
  simp only [registersOf, KeyedSet.mem_keys, List.mem_filterMap, List.mem_filter, List.mem_range]
  constructor
  · rintro ⟨reg, ⟨idx, ⟨-, htest⟩, hreg⟩, rfl⟩
    exact ⟨idx, reg, hreg, rfl, htest⟩
  · rintro ⟨idx, reg, hreg, rfl, htest⟩
    exact ⟨reg, ⟨idx, ⟨(List.getElem?_eq_some_iff.mp hreg).1, htest⟩, hreg⟩, rfl⟩

theorem mem_registersOf_iff (f : MirFunction) (bits : DenseBitSet) {P : RegKey → Prop}
    (hglobal : ∀ r, P r → r ∈ keys regKey (globalRegUniverse f))
    (hbits : ∀ (k : Fin (64 * numWords f)) reg,
      (globalRegUniverse f)[(k : ℕ)]? = some reg → (k ∈ setBits (numWords f) bits ↔ P (regKey reg)))
    (r : RegKey) : r ∈ keys regKey (registersOf (globalRegUniverse f) bits) ↔ P r := by
  have hlt : ∀ {idx : ℕ} {reg : MirRegisterRef}, (globalRegUniverse f)[idx]? = some reg →
      idx < 64 * numWords f := by
    intro idx reg hreg
    have hidx := (List.getElem?_eq_some_iff.mp hreg).1
    unfold numWords
    omega
  rw [mem_registersOf]
  constructor
  · rintro ⟨idx, reg, hreg, rfl, htest⟩
    exact (hbits ⟨idx, hlt hreg⟩ reg hreg).mp htest
  · intro hP
    obtain ⟨reg, hmem, rfl⟩ := KeyedSet.mem_keys.mp (hglobal r hP)
    obtain ⟨idx, hidx⟩ := mem_iff_getElem?.mp hmem
    exact ⟨idx, reg, hidx, rfl, (hbits ⟨idx, hlt hidx⟩ reg hidx).mpr hP⟩

end LivenessAnalysisPass

open LivenessAnalysisPass

/-- The sets of a result are what the paths of the graph say. -/
structure IsPathLiveness (f : MirFunction) (getSuccessors : ℕ → List ℕ) (r : LivenessResult) :
    Prop where
  liveIn : ∀ b ∈ f.blocks, ∀ k, k ∈ keys regKey (r.liveIn b.id) ↔
    (blockFlow f getSuccessors).LiveIn k b
  liveOut : ∀ b ∈ f.blocks, ∀ k, k ∈ keys regKey (r.liveOut b.id) ↔
    (blockFlow f getSuccessors).LiveOut k b

variable {f : MirFunction}

theorem liveOut_global {b : MirBlock} {k : RegKey} (h : (blockFlow f getSuccessors).LiveOut k b) :
    k ∈ keys regKey (globalRegUniverse f) := by
  obtain ⟨c, hbc, hc⟩ := h
  exact exists_bit_of_liveIn hbc.1 hc

theorem isPathLiveness_of_no_globals (getSuccessors : ℕ → List ℕ) (h : globalRegUniverse f = []) :
    IsPathLiveness f getSuccessors ⟨fun _ => [], fun _ => []⟩ := by
  refine ⟨fun b hb k => iff_of_false (by simp) fun hlive => ?_,
    fun b _ k => iff_of_false (by simp) fun hlive => ?_⟩
  · have hmem := exists_bit_of_liveIn hb hlive
    simp [h] at hmem
  · have hmem := liveOut_global hlive
    simp [h] at hmem

theorem isPathLiveness_materialize {s : LiveBits f.blocks.length} (hexact : ∀ k i, (k ∈ (facts
      (numWords f) s).1 i ↔ (bitFlow (equations f getSuccessors) (numWords f)).LiveIn k i) ∧ (k ∈
      (facts (numWords f) s).2 i ↔ (bitFlow (equations f getSuccessors) (numWords f)).LiveOut k
        i)) :
    IsPathLiveness f getSuccessors (materialize f s) := by
  refine ⟨fun b hb k => ?_, fun b hb k => ?_⟩ <;> obtain ⟨i, hi, rfl⟩ := getElem_of_mem hb
  · have hidx := (blockIdToDenseIdx_eq_some_iff f f.blocks[i].id ⟨i, hi⟩).mpr rfl
    simp only [materialize, hidx, Option.map_some, Option.getD_some]
    refine mem_registersOf_iff f _ (fun r => exists_bit_of_liveIn hb) (fun k reg hreg => ?_) k
    exact (hexact k ⟨i, hi⟩).1.trans (liveIn_bit_iff hreg ⟨i, hi⟩)
  · have hidx := (blockIdToDenseIdx_eq_some_iff f f.blocks[i].id ⟨i, hi⟩).mpr rfl
    simp only [materialize, hidx, Option.map_some, Option.getD_some]
    refine mem_registersOf_iff f _ (fun r => liveOut_global) (fun k reg hreg => ?_) k
    exact (hexact k ⟨i, hi⟩).2.trans (liveOut_bit_iff hreg ⟨i, hi⟩)

/-- The analysis ends with the registers that the paths say are live, in whatever order
the blocks are visited. -/
theorem computeWithOrder_isPathLiveness (f : MirFunction) (getSuccessors : ℕ → List ℕ)
    {order : List (Fin f.blocks.length)} (horder : ∀ i, i ∈ order) {fuel : ℕ}
    (hfuel : 2 * (f.blocks.length * (64 * numWords f)) < fuel) :
    ∃ r, computeWithOrder f getSuccessors order fuel = some r ∧
      IsPathLiveness f getSuccessors r := by
  unfold computeWithOrder
  by_cases hglobals : globalRegUniverse f = []
  · exact ⟨_, if_pos hglobals, isPathLiveness_of_no_globals getSuccessors hglobals⟩
  have hsound : (bitFlow (equations f getSuccessors) (numWords f)).Sound
      (facts (numWords f) (noBits f)) := by
    rw [facts_noBits]
    exact BackwardFlow.Sound.empty
  obtain ⟨s, hsolve, hs, hround⟩ := solve_spec (sizedEquations f getSuccessors) order
    (noBits_sized f) hsound (show 2 * (f.blocks.length * (64 * numWords f)) < fuel + _ by omega)
  refine ⟨materialize f s, ?_, isPathLiveness_materialize fun k i => ?_⟩
  · rw [if_neg hglobals, hsolve, Option.map_some]
  · exact hs.exact (fun j => hs.visit_eq_of_round hround (horder j)) k i

/-- The analysis of a function with any graph ends with the path-based liveness, and every
other order of the blocks gives the same. -/
theorem computeGlobalLiveness_isPathLiveness (f : MirFunction) (getSuccessors : ℕ → List ℕ) :
    (∃ rounds, ∀ fuel, rounds < fuel → ∃ r, computeGlobalLiveness f getSuccessors fuel = some r ∧
      IsPathLiveness f getSuccessors r) ∧
    ∀ order : List (Fin f.blocks.length), (∀ i, i ∈ order) → ∃ rounds, ∀ fuel, rounds < fuel → ∃ r,
        computeWithOrder f getSuccessors order fuel = some r ∧
          IsPathLiveness f getSuccessors r := by
  constructor
  · refine ⟨_, fun fuel hfuel => computeWithOrder_isPathLiveness f getSuccessors ?_ hfuel⟩
    simp
  · intro order horder
    exact ⟨_, fun fuel hfuel => computeWithOrder_isPathLiveness f getSuccessors horder hfuel⟩

/-- A block that counts down and branches back to itself, and one behind it. -/
def loopFunction : MirFunction where
  blocks := [ ⟨0, [⟨.MOV, none, [.register ⟨true, none, 1⟩, .integer 5]⟩]⟩,
    ⟨1, [⟨.SUB, none, [.register ⟨true, none, 1⟩, .register ⟨true, none, 1⟩, .integer 1]⟩]⟩,
    ⟨2, [⟨.RET, none, [.register ⟨true, none, 2⟩]⟩]⟩]
  regInfo := none
  nodup := by decide

def loopSuccessors (id : ℕ) : List ℕ := if id = 0 then [1] else if id = 1 then [1, 2] else []

def loopOrder : List (Fin loopFunction.blocks.length) := ([1, 0, 2] : List (Fin 3))

theorem computeGlobalLiveness_loop : ∃ rounds, ∀ fuel, rounds < fuel → ∃ r,
      computeWithOrder loopFunction loopSuccessors loopOrder fuel = some r ∧
        IsPathLiveness loopFunction loopSuccessors r :=
  (computeGlobalLiveness_isPathLiveness loopFunction loopSuccessors).2 loopOrder (by decide)

end EzPacker.Liveness
