import EzPacker.PhiElimination.SelectPhi

/-!
# Moves in the place of PHIs

A block whose PHIs are gone runs like the block before, when each move that was put into
its predecessors finds its source as it is on the edge, and no instruction meets a
register that a move has already overwritten. Where the moves stand among the
instructions is a relation between the two bodies; what holds at every point is that the
live registers agree, up to the results that moves have already written, and that these
results agree with the registers they were moved from.
-/

namespace EzPacker.PhiElimination

open List Function Mir CodeFlow

/-- A move into the result of a PHI. -/
structure Move where
  dst : MirRegisterRef
  src : MirRegisterRef
  dst_virtual : dst.isVirtual = true
  src_virtual : src.isVirtual = true

def Move.inst (mv : Move) : MirInstruction := movInst mv.dst mv.src

def Refines {V : Type*} (value value' : Option V) : Prop :=
  ∀ v, value = some v → value' = some v

theorem Refines.refl {V : Type*} (value : Option V) : Refines value value := fun _ h => h

/-- The registers that a move touches are left alone by the instructions behind it. -/
structure SafeMove (blocks : List MirBlock) (mv : Move) (rest : List MirInstruction) :
    Prop where
  unread : ∀ inst ∈ rest, mv.dst.id ∉ reads inst
  unwritten : ∀ inst ∈ rest, mv.dst.id ∉ writes inst
  settled : Needed blocks mv.dst.id → ∀ inst ∈ rest, mv.src.id ∉ writes inst

/-- A move leaves alone what a later one reads and writes. -/
structure SafeBefore (blocks : List MirBlock) (mv later : Move) : Prop where
  source : Needed blocks later.dst.id → later.src.id ≠ mv.dst.id
  result : later.dst.id ≠ mv.dst.id

variable {inst : MirInstruction} {mv : Move} {rest : List MirInstruction}

theorem SafeMove.tail {blocks : List MirBlock} (h : SafeMove blocks mv (inst :: rest)) :
    SafeMove blocks mv rest where
  unread i hi := h.unread i (mem_cons_of_mem inst hi)
  unwritten i hi := h.unwritten i (mem_cons_of_mem inst hi)
  settled hneeded i hi := h.settled hneeded i (mem_cons_of_mem inst hi)

/-- The moves stand among the instructions, in front of every jump. Moves of a register to
itself do not count. -/
inductive Placed (arch : TargetArch) (blocks : List MirBlock) (results : List ℕ) :
    List MirInstruction → List Move → List MirInstruction → Prop
  | nil : Placed arch blocks results [] [] []
  | keep {inst : MirInstruction} {rest final : List MirInstruction} {moves : List Move} :
      (mayJump arch inst = true → moves = []) → Placed arch blocks results rest moves final →
        Placed arch blocks results (inst :: rest) moves (inst :: final)
  | move {mv : Move} {rest final : List MirInstruction} {moves : List Move} :
      SafeMove blocks mv rest → (∀ later ∈ moves, SafeBefore blocks mv later) →
        Placed arch blocks results rest moves final →
        Placed arch blocks results rest (mv :: moves) (mv.inst :: final)
  | self {mv : Move} {rest final : List MirInstruction} {moves : List Move} :
      mv.src.id = mv.dst.id → mv.dst.id ∈ results → Placed arch blocks results rest moves final →
        Placed arch blocks results rest moves (mv.inst :: final)

section

variable {arch : TargetArch} {V S : Type*} {m : Machine arch V S}
  {blocks : List MirBlock} {results : List ℕ}

/-- The registers at a point of a block agree with those of the selected block, where some
moves of the block have been executed. -/
structure Agrees (arch : TargetArch) (blocks : List MirBlock) (source : ℕ)
    (rest : List MirInstruction) (moved : List Move) (env env' : Env V) : Prop where
  live : ∀ r, Live blocks arch source rest r → (∀ mv ∈ moved, mv.dst.id ≠ r) →
    Refines (env r) (env' r)
  moved : ∀ mv ∈ moved, Needed blocks mv.dst.id → Refines (env mv.src.id) (env' mv.dst.id)

variable {insts : List MirInstruction} {source : ℕ} {env env' : Env V} {values : List V}
  {moved : List Move}

theorem Live.needed {r : ℕ} (h : Live blocks arch source insts r)
    (hinsts : ∀ inst ∈ insts, ∀ r ∈ reads inst, Needed blocks r) (hphis : ∀ b ∈ blocks, ∀ phi ∈
      b.phis, ∀ op r, op ∈ phi.operands.tail → virtualId op = some r → r ∈ reads phi) :
    Needed blocks r := by
  induction h with
  | read h => exact hinsts _ mem_cons_self _ h
  | behind _ _ ih => exact ih fun i hi => hinsts i (mem_cons_of_mem _ hi)
  | jump _ _ _ ih => exact ih nofun
  | merged hb _ hphi hresult hneeded hop hr =>
    refine .merged hb hphi hresult hneeded (hphis _ hb _ hphi _ _ ?_ hr)
    unfold incomingAt at hop
    rw [Nat.add_comm, ← getElem?_tail] at hop
    exact mem_of_getElem? hop
  | across hb _ _ _ ih => exact ih fun i hi r hr => .read hb hi hr

theorem copyOf_inst (h : mv.dst.id ∈ results) :
    copyOf results mv.inst = some (mv.dst.id, mv.src.id) := by
  unfold copyOf Move.inst movInst
  simp [mv.dst_virtual, mv.src_virtual, h]

/-- A register that is read on an edge is live where nothing behind writes it. -/
theorem live_of_unwritten {r : ℕ} (h : Live blocks arch source [] r)
    (hwrites : ∀ inst ∈ insts, r ∉ writes inst) : Live blocks arch source insts r := by
  induction insts with
  | nil => exact h
  | cons inst rest ih =>
    exact .behind (hwrites inst mem_cons_self) (ih fun i hi => hwrites i (mem_cons_of_mem inst hi))

theorem operandValues_eq (h : operandValues env inst = some values)
    (hagrees : ∀ r ∈ reads inst, Refines (env r) (env' r)) :
    operandValues env' inst = some values := by
  unfold operandValues at *
  generalize reads inst = rs at *
  induction rs generalizing values with
  | nil => exact h
  | cons r rs ih =>
    rw [mapM_cons] at *
    cases hr : env r with
    | none =>
      rw [hr] at h
      cases h
    | some v =>
      cases hrs : rs.mapM env with
      | none =>
        rw [hr, hrs] at h
        cases h
      | some vs =>
        rw [hr, hrs] at h
        rw [hagrees r mem_cons_self v hr, ih hrs fun x hx => hagrees x (mem_cons_of_mem r hx)]
        exact h

theorem write_of_not_mem {regs : List ℕ} {r : ℕ} (h : r ∉ regs) : env.write regs values r = env r :=
  if_neg h

/-- Written registers agree behind an instruction that wrote the same values. -/
theorem refines_write {regs : List ℕ} {r : ℕ} (h : r ∉ regs → Refines (env r) (env' r)) :
    Refines (env.write regs values r) (env'.write regs values r) := by
  unfold Env.write
  by_cases hr : r ∈ regs
  · rw [if_pos hr, if_pos hr]
    exact Refines.refl _
  · rw [if_neg hr, if_neg hr]
    exact h hr

/-! ### A step -/

theorem Agrees.write (h : Agrees arch blocks source insts moved env env') (hlive : ∀ r, Live blocks
      arch source rest r → r ∉ writes inst → Live blocks arch source insts r) (hsafe : ∀ mv ∈ moved,
      mv.dst.id ∉ writes inst ∧ (Needed blocks mv.dst.id → mv.src.id ∉ writes inst))
    (values : List V) : Agrees arch blocks source rest moved (env.write (writes inst) values)
      (env'.write (writes inst) values) where
  live r hr hne := refines_write fun hw => h.live r (hlive r hr hw) hne
  moved mv hmv hneeded := by
    rw [write_of_not_mem ((hsafe mv hmv).2 hneeded), write_of_not_mem (hsafe mv hmv).1]
    exact h.moved mv hmv hneeded

theorem Agrees.move (h : Agrees arch blocks source rest moved env env')
    (hbefore : ∀ mv' ∈ moved, SafeBefore blocks mv' mv)
    (hlive : Needed blocks mv.dst.id → Live blocks arch source rest mv.src.id) :
    Agrees arch blocks source rest (moved ++ [mv]) env
      (update env' mv.dst.id (env' mv.src.id)) where
  live r hr hne := by
    have hdst : r ≠ mv.dst.id := fun hdst => hne mv (by simp) hdst.symm
    rw [update_of_ne hdst]
    exact h.live r hr fun mv' hmv' => hne mv' (mem_append_left _ hmv')
  moved mv' hmv' hneeded := by
    rcases mem_append.mp hmv' with hmv' | hmv'
    · rw [update_of_ne (Ne.symm (hbefore mv' hmv').result)]
      exact h.moved mv' hmv' hneeded
    · obtain rfl := mem_singleton.mp hmv'
      rw [update_self]
      exact h.live mv'.src.id (hlive hneeded) fun mv'' hmv'' =>
        ((hbefore mv'' hmv'').source hneeded).symm

/-! ### A block -/

/-- How the runs of a block and of the selected block compare: the events of the one begin
those of the other, and when the one goes on to a block so does the other, with registers
that agree. -/
structure RunsAlike (arch : TargetArch) (blocks : List MirBlock) (source : ℕ)
    (moved : List Move) (run run' : List (Event V) × BlockExit V S) : Prop where
  events : run.1 <+: run'.1
  goesOn : ∀ target env state, run.2 = .goto target env state →
    run'.1 = run.1 ∧ ∃ env', run'.2 = .goto target env' state ∧
      Agrees arch blocks source [] moved env env'

theorem RunsAlike.cons {run run' : List (Event V) × BlockExit V S} (event : Event V)
    (h : RunsAlike arch blocks source moved run run') :
    RunsAlike arch blocks source moved (event :: run.1, run.2) (event :: run'.1, run'.2) where
  events := (prefix_cons_inj event).mpr h.events
  goesOn target env state hexit := by
    obtain ⟨hevents, hgoes⟩ := h.goesOn target env state hexit
    exact ⟨by rw [hevents], hgoes⟩

theorem runBody_move (hmv : mv.dst.id ∈ results) (next : Option ℕ) (final : List MirInstruction)
    (env : Env V) (state : S) : runBody m results next (mv.inst :: final) env state =
      runBody m results next final (update env mv.dst.id (env mv.src.id)) state := by
  conv_lhs => unfold runBody
  rw [copyOf_inst hmv]

theorem runBody_runsAlike {next : Option ℕ} {final : List MirInstruction} {moves : List Move}
    (state : S) (hplaced : Placed arch blocks results rest moves final)
    (hagrees : Agrees arch blocks source rest moved env env')
    (hmoved : ∀ mv ∈ moved, SafeMove blocks mv rest ∧ ∀ later ∈ moves, SafeBefore blocks mv later)
    (hresults : ∀ mv ∈ moves, mv.dst.id ∈ results)
    (hread : ∀ mv ∈ moves, Needed blocks mv.dst.id → Live blocks arch source [] mv.src.id)
    (hcopies : ∀ inst ∈ rest, copyOf results inst = none) :
    RunsAlike arch blocks source (moved ++ moves)
      (runBody m results next rest env state) (runBody m results next final env' state) := by
  induction hplaced generalizing moved env env' state with
  | nil =>
    rw [append_nil]
    unfold runBody
    cases next with
    | none => exact ⟨prefix_rfl, nofun⟩
    | some target =>
      refine ⟨prefix_rfl, ?_⟩
      intro _ _ _ hexit
      cases hexit
      exact ⟨rfl, env', rfl, hagrees⟩
  | @keep inst rest final moves hjump hplaced ih =>
    have hcopy := hcopies inst mem_cons_self
    unfold runBody
    rw [hcopy]
    dsimp only
    cases hvalues : operandValues env inst with
    | none => exact ⟨List.nil_prefix, nofun⟩
    | some values =>
      have hvalues' : operandValues env' inst = some values :=
        operandValues_eq hvalues fun r hr => hagrees.live r (.read hr) fun mv hmv hdst =>
          (hmoved mv hmv).1.unread inst mem_cons_self (hdst ▸ hr)
      have hsafe : ∀ mv ∈ moved, mv.dst.id ∉ writes inst ∧
          (Needed blocks mv.dst.id → mv.src.id ∉ writes inst) := fun mv hmv =>
        ⟨(hmoved mv hmv).1.unwritten inst mem_cons_self, fun hneeded =>
          (hmoved mv hmv).1.settled hneeded inst mem_cons_self⟩
      rw [hvalues']
      dsimp only
      cases hexec : m.exec inst values state with
      | stop => exact ⟨prefix_rfl, nofun⟩
      | next results' state' =>
        exact RunsAlike.cons _ (ih state'
          (hagrees.write (fun r hr hw => .behind hw hr) hsafe results')
          (fun mv hmv => ⟨(hmoved mv hmv).1.tail, (hmoved mv hmv).2⟩) hresults hread
          fun i hi => hcopies i (mem_cons_of_mem inst hi))
      | jump target results' state' =>
        have hmay := m.mayJump_of_jump _ _ _ _ _ _ hexec
        rw [hjump hmay, append_nil]
        refine ⟨prefix_rfl, ?_⟩
        intro _ _ _ hexit
        cases hexit
        exact ⟨rfl, _, rfl, hagrees.write (fun r hr hw => .jump hmay hw hr) hsafe results'⟩
  | @self mv rest final moves hself hmv hplaced ih =>
    rw [runBody_move hmv, hself, update_eq_self]
    exact ih state hagrees hmoved hresults hread hcopies
  | @move mv rest final moves hsafe hbefore hplaced ih =>
    rw [runBody_move (hresults mv mem_cons_self), ← singleton_append, ← append_assoc]
    refine ih state ?_ ?_ (fun mv' hmv' => hresults mv' (mem_cons_of_mem mv hmv'))
      (fun mv' hmv' => hread mv' (mem_cons_of_mem mv hmv')) hcopies
    · exact hagrees.move (fun mv' hmv' => (hmoved mv' hmv').2 mv mem_cons_self)
        fun hneeded => live_of_unwritten (hread mv mem_cons_self hneeded) (hsafe.settled hneeded)
    · intro mv' hmv'
      rcases mem_append.mp hmv' with hmv' | hmv'
      · exact ⟨(hmoved mv' hmv').1, fun later hlater =>
          (hmoved mv' hmv').2 later (mem_cons_of_mem mv hlater)⟩
      · obtain rfl := mem_singleton.mp hmv'
        exact ⟨hsafe, hbefore⟩

/-! ### A whole execution -/

/-- The blocks after selection: no PHI is left, and the moves in a block are what the PHIs
of its successors read on the edges. -/
structure Eliminates (arch : TargetArch) (blocks : List MirBlock) (params results : List ℕ)
    (select : MirBlock → MirBlock) (moves : MirBlock → List Move) : Prop where
  nodup : (blocks.map MirBlock.id).Nodup
  id : ∀ b, (select b).id = b.id
  predecessors : ∀ b, (select b).predecessors = b.predecessors
  phis : ∀ b ∈ blocks, (select b).phis = []
  placed : ∀ b ∈ blocks, Placed arch blocks results b.body (moves b) (select b).body
  isResult : ∀ b ∈ blocks, ∀ mv ∈ moves b, mv.dst.id ∈ results
  read : ∀ b ∈ blocks, ∀ mv ∈ moves b, Needed blocks mv.dst.id → Live blocks arch b.id [] mv.src.id
  dead : ∀ b ∈ blocks, ∀ mv ∈ moves b, ∀ b' ∈ blocks, b.id ∈ b'.predecessors →
    mv.dst.id ∉ b'.phis.filterMap phiResult → ¬ Live blocks arch b'.id b'.body mv.dst.id
  complete : ∀ b ∈ blocks, ∀ b' ∈ blocks, b.id ∈ b'.predecessors → ∀ phi ∈ b'.phis, ∀ d,
    phiResult phi = some d → Needed blocks d → ∃ op src,
      incomingAt b'.predecessors b.id phi = some op ∧ virtualId op = some src ∧
        (Defined blocks params src → (∃ mv ∈ moves b, mv.dst.id = d ∧ mv.src.id = src) ∨
          src = d ∧ ∀ mv ∈ moves b, mv.dst.id ≠ d)
  noCopy : ∀ b ∈ blocks, ∀ inst ∈ b.body, copyOf results inst = none
  reads : ∀ b ∈ blocks, ∀ phi ∈ b.phis, ∀ op r, op ∈ phi.operands.tail →
    virtualId op = some r → r ∈ reads phi

/-- Only registers that may come to have a value have one. -/
def IsSound (blocks : List MirBlock) (params : List ℕ) (env : Env V) : Prop :=
  ∀ r v, env r = some v → Defined blocks params r

theorem mem_tail_of_incomingAt {predecessors : List ℕ} {phi : MirInstruction} {op : MirOperand}
    (h : incomingAt predecessors source phi = some op) : op ∈ phi.operands.tail := by
  unfold incomingAt at h
  rw [Nat.add_comm, ← getElem?_tail] at h
  exact mem_of_getElem? h

variable {params : List ℕ}

theorem isSound_write {b : MirBlock} (hb : b ∈ blocks) (hinst : inst ∈ b.body)
    (h : IsSound blocks params env) (values : List V) :
    IsSound blocks params (env.write (writes inst) values) := by
  intro r v hv
  unfold Env.write at hv
  split at hv
  · next hr => exact .written hb hinst hr
  · exact h r v hv

theorem isSound_runBody {b : MirBlock} (hb : b ∈ blocks) (hinsts : ∀ inst ∈ insts, inst ∈ b.body)
    (hcopies : ∀ inst ∈ insts, copyOf results inst = none) {next : Option ℕ} {state state' : S}
    {target : ℕ} (h : IsSound blocks params env)
    (hexit : (runBody m results next insts env state).2 = .goto target env' state') :
    IsSound blocks params env' := by
  induction insts generalizing env state with
  | nil =>
    unfold runBody at hexit
    cases next with
    | none => cases hexit
    | some target =>
      cases hexit
      exact h
  | cons inst rest ih =>
    have hmem := hinsts inst mem_cons_self
    unfold runBody at hexit
    rw [hcopies inst mem_cons_self] at hexit
    dsimp only at hexit
    cases hvalues : operandValues env inst with
    | none =>
      rw [hvalues] at hexit
      cases hexit
    | some values =>
      rw [hvalues] at hexit
      dsimp only at hexit
      cases hexec : m.exec inst values state with
      | stop =>
        rw [hexec] at hexit
        cases hexit
      | next results' state'' =>
        rw [hexec] at hexit
        exact ih (fun i hi => hinsts i (mem_cons_of_mem inst hi))
          (fun i hi => hcopies i (mem_cons_of_mem inst hi))
          (isSound_write hb hmem h results') hexit
      | jump target' results' state'' =>
        rw [hexec] at hexit
        cases hexit
        exact isSound_write hb hmem h results'

variable {select : MirBlock → MirBlock} {moves : MirBlock → List Move}

section

variable (h : Eliminates arch blocks params results select moves)
include h

theorem isSound_enter {b' : MirBlock} (hb' : b' ∈ blocks) (hsound : IsSound blocks params env) :
    IsSound blocks params (enter m b' source env) := by
  intro r v hv
  unfold enter at hv
  split at hv
  · next phi hfind =>
      have hphi := mem_of_find?_eq_some hfind
      have hresult : phiResult phi = some r := by simpa using find?_some hfind
      obtain ⟨op, hop, hvalue⟩ := Option.bind_eq_some_iff.mp hv
      have htail := mem_tail_of_incomingAt hop
      unfold incomingValue at hvalue
      cases hid : virtualId op with
      | none => exact .constant hb' hphi hresult htail hid
      | some src =>
        rw [hid] at hvalue
        exact .merged hb' hphi hresult (h.reads b' hb' phi hphi op src htail hid)
          (hsound src v hvalue)
  · exact hsound r v hv

theorem agrees_enter {b b' : MirBlock} (hb : b ∈ blocks) (hb' : b' ∈ blocks)
    (hedge : b.id ∈ b'.predecessors) (hsound : IsSound blocks params env)
    (hagrees : Agrees arch blocks b.id [] (moves b) env env') :
    Agrees arch blocks b'.id b'.body [] (enter m b' b.id env)
      (enter m (select b') b.id env') where
  live r hr _ := by
    have hright : enter m (select b') b.id env' r = env' r := by
      unfold enter
      rw [h.phis b' hb']
      rfl
    rw [hright]
    unfold enter
    split
    · next phi hfind =>
        have hphi := mem_of_find?_eq_some hfind
        have hresult : phiResult phi = some r := by simpa using find?_some hfind
        have hneeded : Needed blocks r :=
          hr.needed (fun inst hinst q hq => .read hb' hinst hq) h.reads
        obtain ⟨op, src, hop, hid, hmove⟩ :=
          h.complete b hb b' hb' hedge phi hphi r hresult hneeded
        intro v hv
        have hvalue : env src = some v := by
          rw [hop] at hv
          change incomingValue m env op = some v at hv
          unfold incomingValue at hv
          rwa [hid] at hv
        rcases hmove (hsound src v hvalue) with ⟨mv, hmv, rfl, rfl⟩ | ⟨rfl, hself⟩
        · exact hagrees.moved mv hmv hneeded v hvalue
        · exact hagrees.live src (.merged hb' hedge hphi hresult hneeded hop hid) hself v hvalue
    · next hfind =>
        have hnot : r ∉ b'.phis.filterMap phiResult := by
          intro hmem
          obtain ⟨phi, hphi, hresult⟩ := mem_filterMap.mp hmem
          have hne := find?_eq_none.mp hfind phi hphi
          exact hne (by simpa using hresult)
        apply hagrees.live r (.across hb' hedge hnot hr)
        rintro mv hmv rfl
        exact h.dead b hb mv hmv b' hb' hedge hnot hr
  moved _ hmv := by cases hmv

theorem executes_select {p : ℕ} {state : S} {events : List (Event V)}
    (hrun : Executes m results blocks p env state events) (hsound : IsSound blocks params env)
    (hagrees : ∀ b ∈ blocks, b.id = p → Agrees arch blocks b.id b.body [] env env') :
    Executes m results (blocks.map select) p env' state events := by
  have hblock : ∀ {before after : List MirBlock} {b : MirBlock} {env env' : Env V} (state : S),
      blocks = before ++ b :: after → Agrees arch blocks b.id b.body [] env env' →
      RunsAlike arch blocks b.id (moves b)
        (runBody m results (after.head?.map MirBlock.id) b.body env state)
        (runBody m results ((after.map select).head?.map MirBlock.id) (select b).body env'
          state) := by
    intro before after b env env' state hsplit hagrees
    have hb : b ∈ blocks := by
      rw [hsplit]
      simp
    have hnext : (after.map select).head?.map MirBlock.id = after.head?.map MirBlock.id := by
      cases after with
      | nil => rfl
      | cons c after => exact congrArg some (h.id c)
    rw [hnext, ← nil_append (moves b)]
    exact runBody_runsAlike state (h.placed b hb) hagrees (fun _ hmv => nomatch hmv)
      (h.isResult b hb) (h.read b hb) (h.noCopy b hb)
  have hmap : ∀ {before after : List MirBlock} {b : MirBlock}, blocks = before ++ b :: after →
      blocks.map select = before.map select ++ select b :: after.map select := by
    rintro before after b rfl
    simp
  induction hrun generalizing env' with
  | @within before after b env state events hsplit hpre =>
    have hb : b ∈ blocks := by
      rw [hsplit]
      simp
    rw [← h.id b]
    exact .within (hmap hsplit) (hpre.trans (hblock state hsplit (hagrees b hb rfl)).events)
  | @across before after b b' env env₁ state state₁ events events' hsplit hexit hb' hedge
      hrun ih =>
      have hb : b ∈ blocks := by
        rw [hsplit]
        simp
      have halike := hblock state hsplit (hagrees b hb rfl)
      rw [hexit] at halike
      obtain ⟨hevents, env₁', hexit', hagrees'⟩ := halike.goesOn _ _ _ rfl
      have hsound' : IsSound blocks params env₁ :=
        isSound_runBody hb (fun _ hi => hi) (h.noCopy b hb) hsound (congrArg Prod.snd hexit)
      have hnext : Executes m results (blocks.map select) b'.id
          (enter m (select b') b.id env₁') state₁ events' := by
        apply ih (isSound_enter h hb' hsound')
        intro c hc hid
        obtain rfl := inj_on_of_nodup_map h.nodup hc hb' hid
        exact agrees_enter h hb hb' hedge hsound' hagrees'
      rw [← h.id b]
      refine @Executes.across _ _ _ m results _ _ _ (select b) (select b') _ env₁' _ state₁ _ _
        (hmap hsplit) ?_ (mem_map_of_mem hb') ?_ ?_
      · rw [h.id b']
        exact Prod.ext hevents hexit'
      · rw [h.id b, h.predecessors b']
        exact hedge
      · rw [h.id b, h.id b']
        exact hnext

end

end

end EzPacker.PhiElimination
