import EzPacker.Lib.ImplicationClosure

/-!
# The extensions of a target

The declared extensions of a target are registered one after another, with what they imply.
Enabling follows the implications without a record of what it has visited, disabling follows them
backwards among what is enabled, and registration itself enables defaults only.
-/

namespace EzPacker.Targets

open List Implications

abbrev Name := List UInt8

/-! ## Names -/

def isSpace (c : UInt8) : Bool := c = 32 || (9 ≤ c && c ≤ 13)

def isUpper (c : UInt8) : Bool := 65 ≤ c && c ≤ 90

def isLower (c : UInt8) : Bool := 97 ≤ c && c ≤ 122

def toLower (c : UInt8) : UInt8 := if isUpper c then c + 32 else c

def plusSign : UInt8 := 43

def minusSign : UInt8 := 45

def comma : UInt8 := 44

def trim (name : Name) : Name :=
  ((name.dropWhile isSpace).reverse.dropWhile isSpace).reverse

def dropSign : Name → Name
  | [] => []
  | c :: name => if c = plusSign ∨ c = minusSign then name else c :: name

def normalizeName (name : Name) : Name := (dropSign (trim name)).map toLower

/-- The characters of identifiers; a digit does not come first. -/
def isIdentifierChar (c : UInt8) : Bool :=
  isUpper c || isLower c || c = 95 || (48 ≤ c && c ≤ 57)

structure Identifier where
  text : Name
  ne : text ≠ []
  chars : ∀ c ∈ text, isIdentifierChar c = true

/-! ## The declarations -/

structure ExtensionDef where
  name : Identifier
  isDefault : Bool
  implies : List Identifier

inductive ExtensionError
  | emptyName
  | duplicate (name : Name)
  | impliesSelf (name : Name)
  | impliesUnknown (name implied : Name)
  deriving DecidableEq

def nameErrors : List Name → List ExtensionDef → List ExtensionError
  | _, [] => []
  | seen, ext :: exts =>
    if ext.name.text = [] then .emptyName :: nameErrors seen exts
    else if ext.name.text ∈ seen then .duplicate ext.name.text :: nameErrors seen exts
    else nameErrors (ext.name.text :: seen) exts

def impliesErrors (names : List Name) (ext : ExtensionDef) : List ExtensionError :=
  ext.implies.flatMap fun implied =>
    if implied.text = ext.name.text then [.impliesSelf ext.name.text]
    else if implied.text ∉ names then [.impliesUnknown ext.name.text implied.text]
    else []

/-- What the target pass reports about the extensions of a file. -/
def extensionErrors (exts : List ExtensionDef) : List ExtensionError :=
  nameErrors [] exts ++ exts.flatMap (impliesErrors (exts.map fun ext => ext.name.text))

/-! ## The set -/

structure TargetExtensionInfo where
  name : Name
  isDefault : Bool
  implies : List Name
  deriving DecidableEq

structure TargetExtensionSet where
  known : List TargetExtensionInfo
  enabled : Finset Name
  deriving DecidableEq

def empty : TargetExtensionSet := ⟨[], ∅⟩

/-- The order in which a map is iterated, which is left open. -/
structure IterationOrder where
  scan : List TargetExtensionInfo → List TargetExtensionInfo
  perm : ∀ known, (scan known).Perm known

def findKnown (known : List TargetExtensionInfo) (name : Name) : Option TargetExtensionInfo :=
  known.find? (·.name = name)

def insertKnown (info : TargetExtensionInfo) : List TargetExtensionInfo → List TargetExtensionInfo
  | [] => [info]
  | old :: known => if old.name = info.name then info :: known else old :: insertKnown info known

def isSupported (known : List TargetExtensionInfo) (name : Name) : Bool :=
  known = [] || (findKnown known (normalizeName name)).isSome

def has (enabled : Finset Name) (name : Name) : Bool := normalizeName name ∈ enabled

/-- Whether the name was recognized, and what is enabled then; nothing without enough fuel. -/
def enable (known : List TargetExtensionInfo) : ℕ → Finset Name → Name → Option (Bool × Finset Name)
  | 0, _, _ => none
  | fuel + 1, enabled, name =>
    let canonical := normalizeName name
    if canonical = [] then some (false, enabled)
    else if known ≠ [] ∧ findKnown known canonical = none then some (false, enabled)
    else
      let enabled := insert canonical enabled
      match findKnown known canonical with
      | none => some (true, enabled)
      | some info =>
        (info.implies.foldlM (fun enabled implied =>
          (enable known fuel enabled implied).map Prod.snd) enabled).map (true, ·)

def disable (order : IterationOrder) (known : List TargetExtensionInfo) :
    ℕ → Finset Name → Name → Option (Bool × Finset Name)
  | 0, _, _ => none
  | fuel + 1, enabled, name =>
    let canonical := normalizeName name
    if canonical = [] then some (false, enabled)
    else if known ≠ [] ∧ findKnown known canonical = none then some (false, enabled)
    else
      ((order.scan known).foldlM (fun enabled info =>
        if canonical ∈ info.implies ∧ has enabled info.name = true then
          (disable order known fuel enabled info.name).map Prod.snd
        else some enabled) (enabled.erase canonical)).map (true, ·)

def set (order : IterationOrder) (known : List TargetExtensionInfo) (fuel : ℕ)
    (enabled : Finset Name) (name : Name) (on : Bool) : Option (Bool × Finset Name) :=
  if on then enable known fuel enabled name else disable order known fuel enabled name

def registerExtension (fuel : ℕ) (s : TargetExtensionSet) (ext : ExtensionDef) :
    Option TargetExtensionSet :=
  let canonical := normalizeName ext.name.text
  if canonical = [] then some s
  else
    let implies := (ext.implies.map fun implied => normalizeName implied.text).filter (· ≠ [])
    let known := insertKnown ⟨canonical, ext.isDefault, implies⟩ s.known
    if ext.isDefault then (enable known fuel s.enabled canonical).map fun result =>
      ⟨known, result.2⟩
    else some ⟨known, s.enabled⟩

/-- Whether a modifier enables, and what; nothing if it names nothing. -/
def modifier (mod : Name) : Option (Bool × Name) :=
  match trim mod with
  | [] => none
  | c :: mod =>
    let on := decide (c ≠ minusSign)
    let canonical := normalizeName (if c = minusSign ∨ c = plusSign then mod else c :: mod)
    if canonical = [] then none else some (on, canonical)

def applyModifier (order : IterationOrder) (known : List TargetExtensionInfo) (fuel : ℕ)
    (enabled : Finset Name) (mod : Name) : Option (Option Name × Finset Name) :=
  match modifier mod with
  | none => some (none, enabled)
  | some (on, canonical) =>
    if isSupported known canonical = false then some (some canonical, enabled)
    else (set order known fuel enabled canonical on).map fun result => (none, result.2)

/-- The parts of a feature string between its commas; an empty last part is not visited. -/
def tokensFrom (token : Name) : Name → List Name
  | [] => [token.reverse]
  | c :: rest =>
    if c = comma then token.reverse :: if rest = [] then [] else tokensFrom [] rest
    else tokensFrom (c :: token) rest

def featureTokens (spec : Name) : List Name := if spec = [] then [] else tokensFrom [] spec

def applyTokens (order : IterationOrder) (known : List TargetExtensionInfo) (fuel : ℕ) :
    Finset Name → List Name → Option (Option Name × Finset Name)
  | enabled, [] => some (none, enabled)
  | enabled, token :: tokens =>
    match applyModifier order known fuel enabled token with
    | none => none
    | some (some unknown, enabled) => some (some unknown, enabled)
    | some (none, enabled) => applyTokens order known fuel enabled tokens

def applyFeatureString (order : IterationOrder) (known : List TargetExtensionInfo) (fuel : ℕ)
    (enabled : Finset Name) (spec : Name) : Option (Option Name × Finset Name) :=
  applyTokens order known fuel enabled (featureTokens spec)

def resetToDefaults (order : IterationOrder) (known : List TargetExtensionInfo) (fuel : ℕ) :
    Option (Finset Name) :=
  (order.scan known).foldlM (fun enabled info =>
    if info.isDefault then (enable known fuel enabled info.name).map Prod.snd else some enabled) ∅

inductive Op
  | register (ext : ExtensionDef)
  | enable (name : Name)
  | disable (name : Name)
  | set (name : Name) (on : Bool)
  | applyFeatureString (spec : Name)
  | resetToDefaults

def step (order : IterationOrder) (fuel : ℕ) (s : TargetExtensionSet) :
    Op → Option TargetExtensionSet
  | .register ext => registerExtension fuel s ext
  | .enable name => (enable s.known fuel s.enabled name).map fun result => ⟨s.known, result.2⟩
  | .disable name =>
    (disable order s.known fuel s.enabled name).map fun result => ⟨s.known, result.2⟩
  | .set name on =>
    (set order s.known fuel s.enabled name on).map fun result => ⟨s.known, result.2⟩
  | .applyFeatureString spec =>
    (applyFeatureString order s.known fuel s.enabled spec).map fun result => ⟨s.known, result.2⟩
  | .resetToDefaults =>
    (resetToDefaults order s.known fuel).map fun enabled => ⟨s.known, enabled⟩

/-- The operation ends in `s'`. -/
def Steps (order : IterationOrder) (s : TargetExtensionSet) (op : Op) (s' : TargetExtensionSet) :
    Prop := ∃ fuel, step order fuel s op = some s'

/-! ## What is asked of them -/

def isKnown (known : List TargetExtensionInfo) (name : Name) : Bool :=
  (findKnown known name).isSome

def impliesOf (known : List TargetExtensionInfo) (name : Name) : List Name :=
  ((findKnown known name).map TargetExtensionInfo.implies).getD []

/-- Known extensions imply others, in any number of steps. -/
abbrev Implied (known : List TargetExtensionInfo) : Name → Name → Prop :=
  Reaches (isKnown known) (impliesOf known)

/-- Every known extension implied by an enabled one is enabled. -/
def Closed (s : TargetExtensionSet) : Prop :=
  ∀ a ∈ s.enabled, ∀ b, Implied s.known a b → isKnown s.known b = true → b ∈ s.enabled

def EnablesExactly (s : TargetExtensionSet) (name : Name) (s' : TargetExtensionSet) : Prop :=
  ∀ a, a ∈ s'.enabled ↔
    a ∈ s.enabled ∨ isKnown s.known a = true ∧ Implied s.known (normalizeName name) a

def DisablesExactly (s : TargetExtensionSet) (name : Name) (s' : TargetExtensionSet) : Prop :=
  ∀ a, a ∈ s'.enabled ↔ a ∈ s.enabled ∧ ¬Implied s.known a (normalizeName name)

def Exact (s : TargetExtensionSet) : Op → TargetExtensionSet → Prop
  | .enable name, s' => EnablesExactly s name s'
  | .disable name, s' => DisablesExactly s name s'
  | .set name on, s' => if on then EnablesExactly s name s' else DisablesExactly s name s'
  | _, _ => True

/-- Every operation ends, in a closed set, and enables and disables exactly what it should. -/
def RunRight (order : IterationOrder) : TargetExtensionSet → List Op → Prop
  | _, [] => True
  | s, op :: ops => ∃ s', Steps order s op s' ∧ Closed s' ∧ Exact s op s' ∧ RunRight order s' ops

/-! ## When it is so -/

def NoCycle (known : List TargetExtensionInfo) (name : Name) : Prop :=
  NoCycleFrom (isKnown known) (impliesOf known) name

/-- Names that are enabled lead to no cycle, and are not enabled before there are any known. -/
structure EnableFits (s : TargetExtensionSet) (name : Name) : Prop where
  noCycle : NoCycle s.known (normalizeName name)
  known : s.known = [] → normalizeName name = [] ∨ normalizeName name ∈ s.enabled

/-- Where there are known names, an unknown name is implied by nothing that is enabled. -/
def DisableFits (s : TargetExtensionSet) (name : Name) : Prop :=
  s.known ≠ [] → isKnown s.known (normalizeName name) = false →
    ∀ a ∈ s.enabled, ¬Implied s.known a (normalizeName name)

def enabledBy (known : List TargetExtensionInfo) : List Name → List Name
  | [] => []
  | token :: tokens =>
    match modifier token with
    | none => enabledBy known tokens
    | some (on, canonical) =>
      if isSupported known canonical = false then []
      else if on then canonical :: enabledBy known tokens
      else enabledBy known tokens

def infoOf (ext : ExtensionDef) : TargetExtensionInfo :=
  ⟨normalizeName ext.name.text, ext.isDefault,
    (ext.implies.map fun implied => normalizeName implied.text).filter (· ≠ [])⟩

/-- A default leads to no cycle. Nothing enabled waits for an extension that is not enabled with
its registration, nor does that extension wait for what it implies. -/
structure RegisterFits (s : TargetExtensionSet) (ext : ExtensionDef) : Prop where
  noCycle : ext.isDefault = true →
    NoCycle (insertKnown (infoOf ext) s.known) (normalizeName ext.name.text)
  awaited : ext.isDefault = false → normalizeName ext.name.text ∉ s.enabled →
    ∀ a ∈ s.enabled, normalizeName ext.name.text ∉ impliesOf s.known a
  waits : ext.isDefault = false → normalizeName ext.name.text ∈ s.enabled →
    ∀ a ∈ (infoOf ext).implies, isKnown (insertKnown (infoOf ext) s.known) a = true → a ∈ s.enabled

def Fits (s : TargetExtensionSet) : Op → Prop
  | .register ext => RegisterFits s ext
  | .enable name => EnableFits s name
  | .disable name => DisableFits s name
  | .set name on => if on then EnableFits s name else DisableFits s name
  | .applyFeatureString spec => ∀ name ∈ enabledBy s.known (featureTokens spec),
      NoCycle s.known (normalizeName name)
  | .resetToDefaults => ∀ info ∈ s.known, info.isDefault = true → NoCycle s.known info.name

def RunFits (order : IterationOrder) : TargetExtensionSet → List Op → Prop
  | _, [] => True
  | s, op :: ops => Fits s op ∧ ∀ s', Steps order s op s' → RunFits order s' ops

/-! ## Names of identifiers -/

theorem le_of_isIdentifierChar {c : UInt8} (h : isIdentifierChar c = true) : 48 ≤ c.toNat := by
  unfold isIdentifierChar isUpper isLower at h
  simp only [Bool.or_eq_true, Bool.and_eq_true, decide_eq_true_eq, UInt8.le_iff_toNat_le,
    UInt8.reduceToNat] at h
  rcases h with ((h | h) | rfl) | h
  · omega
  · omega
  · decide
  · omega

theorem not_isSpace_of_le {c : UInt8} (h : 48 ≤ c.toNat) : isSpace c = false := by
  unfold isSpace
  rw [Bool.or_eq_false_iff, Bool.and_eq_false_iff, decide_eq_false_iff_not,
    decide_eq_false_iff_not, decide_eq_false_iff_not]
  refine ⟨fun heq => ?_, .inr fun hle => ?_⟩
  · rw [heq] at h
    exact absurd h (by decide)
  · rw [UInt8.le_iff_toNat_le] at hle
    simp only [UInt8.reduceToNat] at hle
    omega

theorem trim_of_not_space {name : Name} (h : ∀ c ∈ name, isSpace c = false) : trim name = name := by
  have hdrop : ∀ text : Name, (∀ c ∈ text, isSpace c = false) → text.dropWhile isSpace = text := by
    intro text htext
    cases text with
    | nil => rfl
    | cons c text =>
      refine dropWhile_cons_of_neg ?_
      rw [htext c (mem_cons_self ..)]
      exact Bool.false_ne_true
  unfold trim
  rw [hdrop name h, hdrop _ fun c hc => h c (mem_reverse.mp hc), reverse_reverse]

theorem dropSign_of_le {name : Name} (h : ∀ c ∈ name, 48 ≤ c.toNat) : dropSign name = name := by
  cases name with
  | nil => rfl
  | cons c name =>
    have hc := h c (mem_cons_self ..)
    refine if_neg ?_
    rintro (rfl | rfl) <;> exact absurd hc (by decide)

theorem normalizeName_of_le {name : Name} (h : ∀ c ∈ name, 48 ≤ c.toNat) :
    normalizeName name = name.map toLower := by
  unfold normalizeName
  rw [trim_of_not_space fun c hc => not_isSpace_of_le (h c hc), dropSign_of_le h]

theorem toLower_spec (c : UInt8) :
    toLower (toLower c) = toLower c ∧ (48 ≤ c.toNat → 48 ≤ (toLower c).toNat) := by
  unfold toLower
  by_cases h : isUpper c = true
  · rw [if_pos h]
    unfold isUpper at h
    simp only [Bool.and_eq_true, decide_eq_true_eq, UInt8.le_iff_toNat_le, UInt8.reduceToNat] at h
    have hadd : (c + 32).toNat = c.toNat + 32 := by
      rw [UInt8.toNat_add]
      simp only [UInt8.reduceToNat]
      omega
    refine ⟨if_neg ?_, fun _ => by omega⟩
    unfold isUpper
    simp only [Bool.and_eq_true, decide_eq_true_eq, UInt8.le_iff_toNat_le, UInt8.reduceToNat]
    omega
  · rw [if_neg h, if_neg h]
    exact ⟨rfl, id⟩

/-- Names that are left alone by a second normalization. -/
def Canonical (name : Name) : Prop := name ≠ [] ∧ normalizeName name = name

theorem Identifier.canonical (ident : Identifier) : Canonical (normalizeName ident.text) := by
  have hle : ∀ c ∈ ident.text, 48 ≤ c.toNat := fun c hc => le_of_isIdentifierChar (ident.chars c hc)
  have hlower : ∀ c ∈ ident.text.map toLower, 48 ≤ c.toNat := by
    intro c hc
    obtain ⟨d, hd, rfl⟩ := mem_map.mp hc
    exact (toLower_spec d).2 (hle d hd)
  refine ⟨?_, ?_⟩
  · rw [normalizeName_of_le hle]
    exact fun h => ident.ne (map_eq_nil_iff.mp h)
  · rw [normalizeName_of_le hle, normalizeName_of_le hlower, map_map]
    exact map_congr_left fun c _ => (toLower_spec c).1

/-! ## What is known -/

/-- The known names are different and canonical, and so are those they imply. -/
structure WellFormed (known : List TargetExtensionInfo) : Prop where
  nodup : (known.map TargetExtensionInfo.name).Nodup
  names : ∀ info ∈ known, Canonical info.name
  implies : ∀ info ∈ known, ∀ name ∈ info.implies, Canonical name

section

variable (info : TargetExtensionInfo) (known : List TargetExtensionInfo) (name : Name)
include info known name

theorem findKnown_cons : findKnown (info :: known) name =
      if info.name = name then some info else findKnown known name := by
  unfold findKnown
  rw [find?_cons]
  by_cases h : info.name = name
  · rw [if_pos h, decide_eq_true h]
  · rw [if_neg h, decide_eq_false h]

theorem findKnown_insertKnown : findKnown (insertKnown info known) name =
      if info.name = name then some info else findKnown known name := by
  induction known with
  | nil => exact findKnown_cons info [] name
  | cons old known ih =>
    unfold insertKnown
    by_cases hold : old.name = info.name
    · rw [if_pos hold, findKnown_cons, findKnown_cons, hold]
      split_ifs <;> rfl
    · rw [if_neg hold, findKnown_cons, ih, findKnown_cons]
      by_cases hname : old.name = name
      · rw [if_pos hname, if_pos hname, if_neg fun h => hold (hname.trans h.symm)]
      · rw [if_neg hname, if_neg hname]

end

theorem mem_of_findKnown {known : List TargetExtensionInfo} {name : Name}
    {info : TargetExtensionInfo} (h : findKnown known name = some info) :
    info ∈ known ∧ info.name = name := by
  have hname := find?_some h
  exact ⟨mem_of_find?_eq_some h, of_decide_eq_true hname⟩

theorem findKnown_of_mem {known : List TargetExtensionInfo}
    (hnodup : (known.map TargetExtensionInfo.name).Nodup) {info : TargetExtensionInfo}
    (h : info ∈ known) : findKnown known info.name = some info := by
  induction known with
  | nil => cases h
  | cons old known ih =>
    rw [map_cons, nodup_cons] at hnodup
    rw [findKnown_cons]
    rcases mem_cons.mp h with rfl | h
    · exact if_pos rfl
    · have hne : old.name ≠ info.name := fun heq => hnodup.1 (heq ▸ mem_map_of_mem h)
      rw [if_neg hne]
      exact ih hnodup.2 h

theorem mem_insertKnown {info other : TargetExtensionInfo} {known : List TargetExtensionInfo}
    (h : other ∈ insertKnown info known) : other = info ∨ other ∈ known := by
  induction known with
  | nil => exact .inl (mem_singleton.mp h)
  | cons old known ih =>
    unfold insertKnown at h
    split_ifs at h with hold
    · exact (mem_cons.mp h).imp_right (mem_cons_of_mem _)
    · rcases mem_cons.mp h with rfl | h
      · exact .inr (mem_cons_self ..)
      · exact (ih h).imp_right (mem_cons_of_mem _)

theorem nodup_insertKnown {info : TargetExtensionInfo} {known : List TargetExtensionInfo}
    (hnodup : (known.map TargetExtensionInfo.name).Nodup) :
    ((insertKnown info known).map TargetExtensionInfo.name).Nodup := by
  induction known with
  | nil => exact nodup_singleton _
  | cons old known ih =>
    rw [map_cons, nodup_cons] at hnodup
    unfold insertKnown
    split_ifs with hold
    · rw [map_cons, ← hold]
      exact nodup_cons.mpr hnodup
    · refine nodup_cons.mpr ⟨fun hmem => ?_, ih hnodup.2⟩
      obtain ⟨other, hother, heq⟩ := mem_map.mp hmem
      rcases mem_insertKnown hother with rfl | hother
      · exact hold heq.symm
      · exact hnodup.1 (heq ▸ mem_map_of_mem hother)

theorem canonical_infoOf (ext : ExtensionDef) :
    Canonical (infoOf ext).name ∧ ∀ name ∈ (infoOf ext).implies, Canonical name := by
  refine ⟨ext.name.canonical, fun name hname => ?_⟩
  obtain ⟨implied, -, rfl⟩ := mem_map.mp (mem_of_mem_filter hname)
  exact implied.canonical

theorem WellFormed.insert {known : List TargetExtensionInfo} (h : WellFormed known)
    (ext : ExtensionDef) : WellFormed (insertKnown (infoOf ext) known) := by
  obtain ⟨hname, himplies⟩ := canonical_infoOf ext
  refine ⟨nodup_insertKnown h.nodup, fun info hinfo => ?_, fun info hinfo => ?_⟩
  · rcases mem_insertKnown hinfo with rfl | hinfo
    · exact hname
    · exact h.names info hinfo
  · rcases mem_insertKnown hinfo with rfl | hinfo
    · exact himplies
    · exact h.implies info hinfo

theorem WellFormed.canonical_of_known {known : List TargetExtensionInfo} (h : WellFormed known)
    {name : Name} (hname : isKnown known name = true) : Canonical name := by
  obtain ⟨info, hinfo⟩ := Option.isSome_iff_exists.mp hname
  obtain ⟨hmem, rfl⟩ := mem_of_findKnown hinfo
  exact h.names info hmem

theorem impliesOf_of_mem {known : List TargetExtensionInfo} (h : WellFormed known)
    {info : TargetExtensionInfo} (hinfo : info ∈ known) :
    impliesOf known info.name = info.implies ∧ isKnown known info.name = true := by
  have hfind := findKnown_of_mem h.nodup hinfo
  unfold impliesOf isKnown
  rw [hfind]
  exact ⟨rfl, rfl⟩

/-! ## The operations as closures -/

variable {fuel : ℕ} {s s' : TargetExtensionSet} {t : Finset Name}

section Operations

variable {known : List TargetExtensionInfo} {enabled : Finset Name}

theorem enable_nil_known (fuel : ℕ) (enabled : Finset Name) (name : Name) :
    (enable [] (fuel + 1) enabled name).map Prod.snd =
      some (if normalizeName name = [] then enabled else insert (normalizeName name) enabled) := by
  unfold enable
  by_cases h : normalizeName name = []
  · rw [if_pos h, if_pos h]
    rfl
  · rw [if_neg h, if_neg h, if_neg fun hcon => hcon.1 rfl]
    rfl

theorem enable_eq_spread (h : WellFormed known) (hknown : known ≠ []) (fuel : ℕ)
    (enabled : Finset Name) (name : Name) :
    (enable known fuel enabled name).map Prod.snd =
      spread (isKnown known) (impliesOf known) fuel enabled (normalizeName name) := by
  induction fuel generalizing enabled name with
  | zero => rfl
  | succ fuel ih =>
    rw [spread_succ]
    unfold enable
    by_cases hnil : normalizeName name = []
    · have hunknown : ¬isKnown known (normalizeName name) = true := fun hk =>
        (h.canonical_of_known hk).1 hnil
      rw [if_pos hnil, if_neg hunknown]
      rfl
    · rw [if_neg hnil]
      unfold isKnown
      cases hfind : findKnown known (normalizeName name) with
      | none =>
        rw [if_pos ⟨hknown, rfl⟩, if_neg (by exact Bool.false_ne_true)]
        rfl
      | some info =>
        have himplies : impliesOf known (normalizeName name) = info.implies := by
          unfold impliesOf
          rw [hfind]
          rfl
        rw [if_neg fun hcon => Option.some_ne_none _ hcon.2, if_pos (by rfl), himplies]
        dsimp only
        rw [Option.map_map]
        have hfold : ∀ s, info.implies.foldlM (fun enabled implied =>
            (enable known fuel enabled implied).map Prod.snd) s =
            info.implies.foldlM (spread (isKnown known) (impliesOf known) fuel) s := by
          refine foldlM_congr fun s implied himplied => ?_
          rw [ih, (h.implies info (mem_of_findKnown hfind).1 implied himplied).2]
        rw [hfold]
        exact Option.map_id' ..

variable (order : IterationOrder)

theorem mem_scan (h : WellFormed known) (name : Name) :
    name ∈ (order.scan known).map TargetExtensionInfo.name ↔ isKnown known name = true := by
  constructor
  · intro hname
    obtain ⟨info, hinfo, rfl⟩ := mem_map.mp hname
    exact (impliesOf_of_mem h ((order.perm known).mem_iff.mp hinfo)).2
  · intro hname
    obtain ⟨info, hinfo⟩ := Option.isSome_iff_exists.mp hname
    obtain ⟨hmem, rfl⟩ := mem_of_findKnown hinfo
    exact mem_map_of_mem ((order.perm known).mem_iff.mpr hmem)

theorem disable_eq_collapse (h : WellFormed known) (fuel : ℕ) (enabled : Finset Name)
    {name : Name} (hname : isKnown known (normalizeName name) = true) :
    (disable order known fuel enabled name).map Prod.snd =
      collapse ((order.scan known).map TargetExtensionInfo.name) (impliesOf known) fuel enabled
        (normalizeName name) := by
  induction fuel generalizing enabled name with
  | zero => rfl
  | succ fuel ih =>
    have hne := (h.canonical_of_known hname).1
    have hfind : ¬(known ≠ [] ∧ findKnown known (normalizeName name) = none) := by
      rintro ⟨-, hnone⟩
      unfold isKnown at hname
      rw [hnone] at hname
      cases hname
    rw [collapse_succ, foldlM_map]
    unfold disable
    rw [if_neg hne, if_neg hfind, Option.map_map]
    refine (Option.map_id' ..).trans (foldlM_congr (fun s info hinfo => ?_) _)
    have hmem := (order.perm known).mem_iff.mp hinfo
    obtain ⟨himplies, hk⟩ := impliesOf_of_mem h hmem
    have hcanonical := (h.names info hmem).2
    have hhas : has s info.name = true ↔ info.name ∈ s := by
      unfold has
      rw [hcanonical, decide_eq_true_eq]
    by_cases hb : normalizeName name ∈ info.implies ∧ info.name ∈ s
    · rw [if_pos ⟨hb.1, hhas.mpr hb.2⟩, if_pos (himplies ▸ hb),
        ih s (by rw [hcanonical]; exact hk), hcanonical]
    · rw [if_neg fun hcon => hb ⟨hcon.1, hhas.mp hcon.2⟩, if_neg (himplies ▸ hb)]

theorem disable_unknown (hknown : known ≠ []) (fuel : ℕ) (enabled : Finset Name) {name : Name}
    (hname : isKnown known (normalizeName name) = false) :
    (disable order known (fuel + 1) enabled name).map Prod.snd = some enabled := by
  unfold disable
  dsimp only
  split_ifs with hnil hno
  · rfl
  · rfl
  · exact absurd ⟨hknown, Option.isNone_iff_eq_none.mp (by simpa [isKnown] using hname)⟩ hno

theorem disable_nil_known (fuel : ℕ) (enabled : Finset Name) (name : Name) :
    (disable order [] (fuel + 1) enabled name).map Prod.snd =
      some (if normalizeName name = [] then enabled else enabled.erase (normalizeName name)) := by
  have hscan : order.scan [] = [] := (order.perm []).eq_nil
  unfold disable
  by_cases h : normalizeName name = []
  · rw [if_pos h, if_pos h]
    rfl
  · rw [if_neg h, if_neg h, if_neg fun hcon => hcon.1 rfl, hscan]
    rfl

/-! ## More fuel -/

theorem map_snd_mono {f g : Option (Bool × Finset Name)}
    (h : ∀ r, f = some r → g = some r) (t : Finset Name) (hf : f.map Prod.snd = some t) :
    g.map Prod.snd = some t := by
  obtain ⟨r, hr, rfl⟩ := Option.map_eq_some_iff.mp hf
  rw [h r hr]
  rfl

variable {enabled : Finset Name} {r : Option Name × Finset Name}

theorem enable_mono {name : Name} {r : Bool × Finset Name}
    (h : enable known fuel enabled name = some r) :
    enable known (fuel + 1) enabled name = some r := by
  induction fuel generalizing enabled name r with
  | zero => cases h
  | succ fuel ih =>
    rw [enable] at h ⊢
    dsimp only at h ⊢
    split_ifs at h ⊢ with hnil hno
    · exact h
    · exact h
    · cases hfind : findKnown known (normalizeName name) with
      | none =>
        rw [hfind] at h
        exact h
      | some info =>
        rw [hfind] at h
        dsimp only at h ⊢
        obtain ⟨s, hs, rfl⟩ := Option.map_eq_some_iff.mp h
        rw [foldlM_mono (fun _ _ _ => map_snd_mono fun _ => ih) hs]
        rfl

theorem disable_mono {name : Name} {r : Bool × Finset Name}
    (h : disable order known fuel enabled name = some r) :
    disable order known (fuel + 1) enabled name = some r := by
  induction fuel generalizing enabled name r with
  | zero => cases h
  | succ fuel ih =>
    rw [disable] at h ⊢
    split_ifs at h ⊢ with hnil hno
    · exact h
    · exact h
    · obtain ⟨s, hs, rfl⟩ := Option.map_eq_some_iff.mp h
      refine Option.map_eq_some_iff.mpr ⟨s, foldlM_mono (fun t info _ u hstep => ?_) hs, rfl⟩
      split_ifs at hstep ⊢ with hb
      · exact map_snd_mono (fun _ => ih) u hstep
      · exact hstep

/-- A computation that keeps its result with more fuel. -/
theorem eq_some_of_le {β : Type*} {f : ℕ → Option β}
    (h : ∀ n r, f n = some r → f (n + 1) = some r) {n m : ℕ} (hle : n ≤ m) {r : β}
    (hn : f n = some r) : f m = some r := by
  induction m, hle using Nat.le_induction with
  | base => exact hn
  | succ m _ ih => exact h m r ih

theorem set_mono {name : Name} {on : Bool} {r : Bool × Finset Name}
    (h : set order known fuel enabled name on = some r) :
    set order known (fuel + 1) enabled name on = some r := by
  unfold set at h ⊢
  split_ifs at h ⊢
  · exact enable_mono h
  · exact disable_mono order h

theorem applyModifier_mono {mod : Name} (h : applyModifier order known fuel enabled mod = some r) :
    applyModifier order known (fuel + 1) enabled mod = some r := by
  unfold applyModifier at h ⊢
  cases hmod : modifier mod with
  | none =>
    rw [hmod] at h
    exact h
  | some m =>
    rw [hmod] at h
    dsimp only at h ⊢
    split_ifs at h ⊢ with hno
    · exact h
    · obtain ⟨t, ht, rfl⟩ := Option.map_eq_some_iff.mp h
      rw [set_mono order ht]
      rfl

theorem applyTokens_mono {tokens : List Name}
    (h : applyTokens order known fuel enabled tokens = some r) :
    applyTokens order known (fuel + 1) enabled tokens = some r := by
  induction tokens generalizing enabled with
  | nil => exact h
  | cons token tokens ih =>
    unfold applyTokens at h ⊢
    cases hfirst : applyModifier order known fuel enabled token with
    | none =>
      rw [hfirst] at h
      cases h
    | some t =>
      rw [hfirst] at h
      rw [applyModifier_mono order hfirst]
      obtain ⟨unknown, t⟩ := t
      cases unknown with
      | none => exact ih h
      | some unknown => exact h

theorem step_mono {op : Op} (h : step order fuel s op = some s') :
    step order (fuel + 1) s op = some s' := by
  cases op with
  | register ext =>
    change registerExtension fuel s ext = some s' at h
    change registerExtension (fuel + 1) s ext = some s'
    unfold registerExtension at h ⊢
    dsimp only at h ⊢
    split_ifs at h ⊢ with hnil hdefault
    · exact h
    · obtain ⟨r, hr, rfl⟩ := Option.map_eq_some_iff.mp h
      rw [enable_mono hr]
      rfl
    · exact h
  | enable name =>
    obtain ⟨r, hr, rfl⟩ := Option.map_eq_some_iff.mp h
    exact Option.map_eq_some_iff.mpr ⟨r, enable_mono hr, rfl⟩
  | disable name =>
    obtain ⟨r, hr, rfl⟩ := Option.map_eq_some_iff.mp h
    exact Option.map_eq_some_iff.mpr ⟨r, disable_mono order hr, rfl⟩
  | set name on =>
    obtain ⟨r, hr, rfl⟩ := Option.map_eq_some_iff.mp h
    exact Option.map_eq_some_iff.mpr ⟨r, set_mono order hr, rfl⟩
  | applyFeatureString spec =>
    obtain ⟨r, hr, rfl⟩ := Option.map_eq_some_iff.mp h
    exact Option.map_eq_some_iff.mpr ⟨r, applyTokens_mono order hr, rfl⟩
  | resetToDefaults =>
    obtain ⟨r, hr, rfl⟩ := Option.map_eq_some_iff.mp h
    refine Option.map_eq_some_iff.mpr ⟨r, foldlM_mono (fun t info _ u hstep => ?_) hr, rfl⟩
    split_ifs at hstep ⊢ with hdefault
    · exact map_snd_mono (fun _ => enable_mono) u hstep
    · exact hstep

theorem Steps.unique {t u : TargetExtensionSet} {op : Op} (ht : Steps order s op t)
    (hu : Steps order s op u) : t = u := by
  obtain ⟨n, hn⟩ := ht
  obtain ⟨m, hm⟩ := hu
  have hmono := fun k r (h : step order k s op = some r) => step_mono order h
  have hn' := eq_some_of_le hmono (le_max_left n m) hn
  have hm' := eq_some_of_le hmono (le_max_right n m) hm
  exact Option.some.inj (hn'.symm.trans hm')

/-! ## What the operations do -/

theorem noCycle_of_unknown {name : Name} (h : isKnown known name = false) : NoCycle known name := by
  intro b hreach hcycle
  rw [reaches_of_not_node h hreach] at hcycle
  obtain ⟨c, hedge, -⟩ := Relation.TransGen.head'_iff.mp hcycle
  rw [hedge.1] at h
  cases h

theorem isKnown_mem {name : Name} (h : isKnown known name = true) :
    name ∈ (known.map TargetExtensionInfo.name).toFinset := by
  obtain ⟨info, hinfo⟩ := Option.isSome_iff_exists.mp h
  obtain ⟨hmem, rfl⟩ := mem_of_findKnown hinfo
  exact mem_toFinset.mpr (mem_map_of_mem hmem)

/-- Enough fuel to enable a name that leads to no cycle, whatever is enabled. -/
def enableFuel (known : List TargetExtensionInfo) : ℕ :=
  (known.map TargetExtensionInfo.name).toFinset.card + 1

section

variable (h : WellFormed known)
include h

theorem enable_ends {name : Name} (hno : NoCycle known (normalizeName name))
    (enabled : Finset Name) :
    ∃ t, (enable known (enableFuel known) enabled name).map Prod.snd = some t := by
  by_cases hknown : known = []
  · rw [hknown]
    exact ⟨_, enable_nil_known _ enabled name⟩
  · rw [enable_eq_spread h hknown]
    exact exists_spread (fun _ => isKnown_mem) hno enabled

theorem noCycle_of_enable {name : Name}
    (hrun : (enable known fuel enabled name).map Prod.snd = some t) :
    NoCycle known (normalizeName name) := by
  by_cases hknown : known = []
  · rw [hknown]
    exact noCycle_of_unknown rfl
  · by_contra hcycle
    rw [enable_eq_spread h hknown, spread_eq_none hcycle] at hrun
    cases hrun

theorem mem_enable {name : Name} (hrun : (enable known fuel enabled name).map Prod.snd = some t)
    (a : Name) :
    a ∈ t ↔ a ∈ enabled ∨ isKnown known a = true ∧ Implied known (normalizeName name) a ∨
      known = [] ∧ normalizeName name ≠ [] ∧ a = normalizeName name := by
  by_cases hknown : known = []
  · subst hknown
    cases fuel with
    | zero => cases hrun
    | succ fuel =>
      rw [enable_nil_known] at hrun
      have hun : isKnown [] a = false := rfl
      rw [← Option.some.inj hrun]
      split_ifs with hnil <;> simp [hun, hnil, or_comm]
  · rw [enable_eq_spread h hknown] at hrun
    rw [mem_spread hrun]
    simp only [hknown, false_and, or_false]

theorem closedUnder_enable {name : Name}
    (hrun : (enable known fuel enabled name).map Prod.snd = some t)
    (hclosed : ClosedUnder (impliesOf known) (isKnown known) enabled) :
    ClosedUnder (impliesOf known) (isKnown known) t := by
  intro a ha b hedge hb
  rw [mem_enable h hrun] at ha ⊢
  rcases ha with ha | ⟨-, hreach⟩ | ⟨hknown, -⟩
  · exact .inl (hclosed a ha b hedge hb)
  · exact .inr (.inl ⟨hb, hreach.tail hedge⟩)
  · rw [hknown] at hb
    cases hb

theorem disable_ends (name : Name) (enabled : Finset Name) :
    ∃ fuel t, (disable order known fuel enabled name).map Prod.snd = some t := by
  by_cases hname : isKnown known (normalizeName name) = true
  · obtain ⟨t, hrun, -⟩ := @exists_collapse _ (normalizeName name) _ enabled
      ((order.scan known).map TargetExtensionInfo.name) (impliesOf known) _ (Nat.lt_succ_self _)
    exact ⟨_, t, (disable_eq_collapse order h _ enabled hname).trans hrun⟩
  · have hname := Bool.eq_false_iff.mpr hname
    by_cases hknown : known = []
    · rw [hknown]
      exact ⟨_, _, disable_nil_known order 0 enabled name⟩
    · exact ⟨_, _, disable_unknown order hknown 0 enabled hname⟩

end

theorem implied_nil_known {a b : Name} : Implied [] a b ↔ a = b :=
  ⟨fun h => (reaches_of_not_node rfl h).symm, fun h => h ▸ .refl⟩

section

variable {fuel : ℕ} {name : Name} {t : Finset Name} (h : WellFormed known) (hnil : [] ∉ enabled)
  (hrun : (disable order known fuel enabled name).map Prod.snd = some t)
  (hclosed : ClosedUnder (impliesOf known) (isKnown known) enabled)
include h hnil hrun hclosed

theorem mem_disable : (known ≠ [] ∧ isKnown known (normalizeName name) = false → t = enabled) ∧
      (known = [] ∨ isKnown known (normalizeName name) = true →
        ∀ a, a ∈ t ↔ a ∈ enabled ∧ ¬Implied known a (normalizeName name)) := by
  cases fuel with
  | zero => cases hrun
  | succ fuel =>
    constructor
    · rintro ⟨hknown, hname⟩
      rw [disable_unknown order hknown fuel enabled hname] at hrun
      exact (Option.some.inj hrun).symm
    · rintro (rfl | hname)
      · intro a
        rw [disable_nil_known] at hrun
        rw [← Option.some.inj hrun, implied_nil_known]
        split_ifs with hempty
        · rw [hempty]
          exact ⟨fun ha => ⟨ha, fun heq => hnil (heq ▸ ha)⟩, And.left⟩
        · rw [Finset.mem_erase, and_comm]
      · rw [disable_eq_collapse order h _ enabled hname] at hrun
        exact mem_collapse (mem_scan order h) hrun hname hclosed

theorem closedUnder_disable : ClosedUnder (impliesOf known) (isKnown known) t ∧ t ⊆ enabled := by
  obtain ⟨hsame, hmem⟩ := mem_disable order h hnil hrun hclosed
  by_cases hname : known ≠ [] ∧ isKnown known (normalizeName name) = false
  · rw [hsame hname]
    exact ⟨hclosed, Finset.Subset.refl _⟩
  · have hname' : known = [] ∨ isKnown known (normalizeName name) = true := by
      rw [not_and_or, not_not, Bool.not_eq_false] at hname
      exact hname
    have hmem := hmem hname'
    refine ⟨fun a ha b hedge hb => ?_, fun a ha => ((hmem a).mp ha).1⟩
    obtain ⟨hin, hno⟩ := (hmem a).mp ha
    exact (hmem b).mpr ⟨hclosed a hin b hedge hb, fun hreach => hno (.head hedge hreach)⟩

end

theorem nil_notMem_enable (h : WellFormed known) (hnil : [] ∉ enabled) {name : Name}
    (hrun : (enable known fuel enabled name).map Prod.snd = some t) : [] ∉ t := by
  intro hmem
  rcases (mem_enable h hrun []).mp hmem with hmem | ⟨hk, -⟩ | ⟨-, hne, heq⟩
  · exact hnil hmem
  · exact (h.canonical_of_known hk).1 rfl
  · exact hne heq.symm

/-- The invariant of the enabled names. -/
structure Settled (known : List TargetExtensionInfo) (enabled : Finset Name) : Prop where
  wellFormed : WellFormed known
  nonempty : [] ∉ enabled
  closed : ClosedUnder (impliesOf known) (isKnown known) enabled

theorem Settled.enable (h : Settled known enabled) {name : Name}
    (hrun : (enable known fuel enabled name).map Prod.snd = some t) : Settled known t :=
  ⟨h.wellFormed, nil_notMem_enable h.wellFormed h.nonempty hrun,
    closedUnder_enable h.wellFormed hrun h.closed⟩

theorem Settled.disable (h : Settled known enabled) {name : Name}
    (hrun : (disable order known fuel enabled name).map Prod.snd = some t) : Settled known t := by
  obtain ⟨hclosed, hsub⟩ := closedUnder_disable order h.wellFormed h.nonempty hrun h.closed
  exact ⟨h.wellFormed, fun hmem => h.nonempty (hsub hmem), hclosed⟩

theorem Settled.set (h : Settled known enabled) {name : Name} {on : Bool}
    (hrun : (set order known fuel enabled name on).map Prod.snd = some t) : Settled known t := by
  unfold Targets.set at hrun
  split_ifs at hrun
  · exact h.enable hrun
  · exact h.disable order hrun

theorem set_ends (h : WellFormed known) {name : Name} {on : Bool}
    (hno : on = true → NoCycle known (normalizeName name)) (enabled : Finset Name) :
    ∃ fuel t, (set order known fuel enabled name on).map Prod.snd = some t := by
  unfold Targets.set
  cases on with
  | true =>
    obtain ⟨t, ht⟩ := enable_ends h (hno rfl) enabled
    exact ⟨enableFuel known, t, ht⟩
  | false => exact disable_ends order h name enabled

theorem noCycle_of_set (h : WellFormed known) {name : Name}
    (hrun : (set order known fuel enabled name true).map Prod.snd = some t) :
    NoCycle known (normalizeName name) := noCycle_of_enable h hrun

/-! ## Feature strings -/

section

variable {token : Name} {on : Bool} {canonical : Name}
  (hmod : modifier token = some (on, canonical)) (hknown : isSupported known canonical = true)
include hmod hknown

theorem applyModifier_of_known : applyModifier order known fuel enabled token =
      ((set order known fuel enabled canonical on).map Prod.snd).map (none, ·) := by
  unfold applyModifier
  rw [hmod]
  dsimp only
  rw [if_neg (by rw [hknown]; exact Bool.noConfusion), Option.map_map]
  rfl

theorem applyTokens_cons_of_known (tokens : List Name) :
    applyTokens order known fuel enabled (token :: tokens) =
      ((set order known fuel enabled canonical on).map Prod.snd).bind
        (applyTokens order known fuel · tokens) := by
  rw [applyTokens, applyModifier_of_known order hmod hknown]
  cases (set order known fuel enabled canonical on).map Prod.snd <;> rfl

end

theorem Settled.applyTokens (h : Settled known enabled) {tokens : List Name}
    (hrun : applyTokens order known fuel enabled tokens = some r) : Settled known r.2 := by
  induction tokens generalizing enabled with
  | nil =>
    rw [← Option.some.inj hrun]
    exact h
  | cons token tokens ih =>
    cases hmod : modifier token with
    | none =>
      rw [Targets.applyTokens, applyModifier, hmod] at hrun
      exact ih h hrun
    | some m =>
      obtain ⟨on, canonical⟩ := m
      cases hknown : isSupported known canonical with
      | false =>
        rw [Targets.applyTokens, applyModifier, hmod] at hrun
        dsimp only at hrun
        rw [if_pos hknown] at hrun
        rw [← Option.some.inj hrun]
        exact h
      | true =>
        rw [applyTokens_cons_of_known order hmod hknown] at hrun
        obtain ⟨t, hset, htokens⟩ := Option.bind_eq_some_iff.mp hrun
        exact ih (h.set order hset) htokens

theorem applyTokens_ends (h : Settled known enabled) (tokens : List Name) :
    (∀ name ∈ enabledBy known tokens, NoCycle known (normalizeName name)) ↔
      ∃ fuel r, applyTokens order known fuel enabled tokens = some r := by
  induction tokens generalizing enabled with
  | nil => exact ⟨fun _ => ⟨0, _, rfl⟩, fun _ name hname => absurd hname not_mem_nil⟩
  | cons token tokens ih =>
    cases hmod : modifier token with
    | none =>
      have hrun : ∀ fuel, applyTokens order known fuel enabled (token :: tokens) =
          applyTokens order known fuel enabled tokens := by
        intro fuel
        rw [applyTokens, applyModifier, hmod]
      have hnames : enabledBy known (token :: tokens) = enabledBy known tokens := by
        rw [enabledBy, hmod]
      simp only [hrun, hnames]
      exact ih h
    | some m =>
      obtain ⟨on, canonical⟩ := m
      cases hknown : isSupported known canonical with
      | false =>
        have hnames : enabledBy known (token :: tokens) = [] := by
          rw [enabledBy, hmod]
          exact if_pos hknown
        have hrun : applyTokens order known 0 enabled (token :: tokens) =
            some (some canonical, enabled) := by
          rw [applyTokens, applyModifier, hmod]
          dsimp only
          rw [if_pos hknown]
        rw [hnames]
        exact ⟨fun _ => ⟨0, _, hrun⟩, fun _ name hname => absurd hname not_mem_nil⟩
      | true =>
        have hnames : enabledBy known (token :: tokens) =
            if on = true then canonical :: enabledBy known tokens
            else enabledBy known tokens := by
          rw [enabledBy, hmod]
          exact if_neg (by rw [hknown]; exact Bool.noConfusion)
        have hiff : (∀ name ∈ enabledBy known (token :: tokens),
            NoCycle known (normalizeName name)) ↔
            (on = true → NoCycle known (normalizeName canonical)) ∧
              ∀ name ∈ enabledBy known tokens, NoCycle known (normalizeName name) := by
          rw [hnames]
          cases on <;> simp
        rw [hiff]
        constructor
        · rintro ⟨hfirst, hrest⟩
          obtain ⟨n, t, hset⟩ := set_ends order h.wellFormed hfirst enabled
          obtain ⟨m, r, htokens⟩ := (ih (h.set order hset)).mp hrest
          refine ⟨max n m, r, ?_⟩
          rw [applyTokens_cons_of_known order hmod hknown]
          have hmono : ∀ k t, (set order known k enabled canonical on).map Prod.snd = some t →
              (set order known (k + 1) enabled canonical on).map Prod.snd = some t :=
            fun k => map_snd_mono fun _ => set_mono order
          rw [eq_some_of_le hmono (le_max_left n m) hset]
          have hmono' : ∀ k r, applyTokens order known k t tokens = some r →
              applyTokens order known (k + 1) t tokens = some r :=
            fun _ _ => applyTokens_mono order
          exact eq_some_of_le hmono' (le_max_right n m) htokens
        · rintro ⟨fuel, r, hrun⟩
          rw [applyTokens_cons_of_known order hmod hknown] at hrun
          obtain ⟨t, hset, htokens⟩ := Option.bind_eq_some_iff.mp hrun
          refine ⟨fun hon => ?_, (ih (h.set order hset)).mpr ⟨fuel, r, htokens⟩⟩
          rw [hon] at hset
          exact noCycle_of_set order h.wellFormed hset

/-! ## Defaults -/

theorem settled_empty (h : WellFormed known) : Settled known ∅ :=
  ⟨h, Finset.notMem_empty _, fun a ha => absurd ha (Finset.notMem_empty a)⟩

theorem Settled.resetToDefaults (h : WellFormed known)
    (hrun : resetToDefaults order known fuel = some t) : Settled known t := by
  refine foldlM_invariant (Settled known) (fun s hs info _ u hstep => ?_) (settled_empty h) hrun
  split_ifs at hstep with hdefault
  · exact hs.enable hstep
  · cases hstep
    exact hs

theorem resetToDefaults_ends (h : WellFormed known) :
    (∀ info ∈ known, info.isDefault = true → NoCycle known info.name) ↔
      ∃ fuel t, resetToDefaults order known fuel = some t := by
  have hcanonical : ∀ info ∈ known, normalizeName info.name = info.name := fun info hinfo =>
    (h.names info hinfo).2
  constructor
  · intro hno
    have hstep : ∀ s, ∀ info ∈ order.scan known, ∃ t, (if info.isDefault then
        (Targets.enable known (enableFuel known) s info.name).map Prod.snd
        else some s) = some t := by
      intro s info hinfo
      have hmem := (order.perm known).mem_iff.mp hinfo
      split_ifs with hdefault
      · have hname := hno info hmem hdefault
        rw [← hcanonical info hmem] at hname
        exact enable_ends h hname s
      · exact ⟨s, rfl⟩
    obtain ⟨t, ht, -⟩ := foldlM_isSome (fun _ => True)
      (fun s _ info hinfo => (hstep s info hinfo).imp fun _ ht => ⟨ht, trivial⟩) trivial
    exact ⟨enableFuel known, t, ht⟩
  · rintro ⟨fuel, t, hrun⟩ info hinfo hdefault
    by_contra hcycle
    have hnever : ∀ s, (if info.isDefault then
        (Targets.enable known fuel s info.name).map Prod.snd else some s) = none := by
      intro s
      rw [if_pos hdefault]
      cases hs : (Targets.enable known fuel s info.name).map Prod.snd with
      | none => rfl
      | some u =>
        have hno := noCycle_of_enable h hs
        rw [hcanonical info hinfo] at hno
        exact absurd hno hcycle
    unfold resetToDefaults at hrun
    rw [foldlM_eq_none ((order.perm known).mem_iff.mpr hinfo) hnever] at hrun
    cases hrun

end Operations

/-! ## Registration -/

section Registration

variable {known : List TargetExtensionInfo} {enabled : Finset Name} {ext : ExtensionDef}

theorem isKnown_insertKnown (info : TargetExtensionInfo) (name : Name) :
    isKnown (insertKnown info known) name = true ↔
      info.name = name ∨ isKnown known name = true := by
  unfold isKnown
  rw [findKnown_insertKnown]
  by_cases h : info.name = name
  · rw [if_pos h]
    exact ⟨fun _ => .inl h, fun _ => rfl⟩
  · rw [if_neg h]
    exact ⟨.inr, fun hk => hk.resolve_left h⟩

theorem impliesOf_insertKnown (info : TargetExtensionInfo) (name : Name) :
    impliesOf (insertKnown info known) name =
      if info.name = name then info.implies else impliesOf known name := by
  unfold impliesOf
  rw [findKnown_insertKnown]
  split_ifs <;> rfl

theorem edge_insertKnown_of_ne {info : TargetExtensionInfo} {a b : Name} (hne : info.name ≠ a) :
    Edge (isKnown (insertKnown info known)) (impliesOf (insertKnown info known)) a b ↔
      Edge (isKnown known) (impliesOf known) a b := by
  unfold Edge
  rw [isKnown_insertKnown, impliesOf_insertKnown, if_neg hne, or_iff_right hne]

theorem closedUnder_register (hclosed : ClosedUnder (impliesOf known) (isKnown known) enabled)
    (hknown : ∀ a b, b ∈ impliesOf known a → isKnown known a = true) (info : TargetExtensionInfo) :
    ClosedUnder (impliesOf (insertKnown info known)) (isKnown (insertKnown info known)) enabled ↔
      (info.name ∉ enabled → ∀ a ∈ enabled, info.name ∉ impliesOf known a) ∧
        (info.name ∈ enabled → ∀ a ∈ info.implies,
          isKnown (insertKnown info known) a = true → a ∈ enabled) := by
  have hself : isKnown (insertKnown info known) info.name = true :=
    (isKnown_insertKnown info _).mpr (.inl rfl)
  constructor
  · intro hnew
    refine ⟨fun hout a ha himplied => hout ?_, fun hin a ha hk => ?_⟩
    · have hne : info.name ≠ a := fun heq => hout (heq ▸ ha)
      exact hnew a ha _ ((edge_insertKnown_of_ne hne).mpr ⟨hknown a _ himplied, himplied⟩) hself
    · refine hnew info.name hin a ⟨hself, ?_⟩ hk
      rw [impliesOf_insertKnown, if_pos rfl]
      exact ha
  · rintro ⟨hawaited, hwaits⟩ a ha b hedge hb
    by_cases heq : info.name = a
    · obtain ⟨-, himplied⟩ := hedge
      rw [impliesOf_insertKnown, if_pos heq] at himplied
      exact hwaits (heq ▸ ha) b himplied hb
    · have hold := (edge_insertKnown_of_ne heq).mp hedge
      rcases (isKnown_insertKnown info b).mp hb with rfl | hb
      · by_contra hout
        exact hawaited hout a ha hold.2
      · exact hclosed a ha b hold hb

theorem known_of_implies {a b : Name} (h : b ∈ impliesOf known a) : isKnown known a = true := by
  unfold impliesOf at h
  unfold isKnown
  cases hfind : findKnown known a with
  | none =>
    rw [hfind] at h
    cases h
  | some info => rfl

theorem closedUnder_default (hclosed : ClosedUnder (impliesOf known) (isKnown known) enabled)
    (hwell : WellFormed (insertKnown (infoOf ext) known)) (hrun : (enable (insertKnown (infoOf ext)
      known) fuel enabled (infoOf ext).name).map Prod.snd = some t) :
    ClosedUnder (impliesOf (insertKnown (infoOf ext) known))
      (isKnown (insertKnown (infoOf ext) known)) t := by
  have hcanonical := (canonical_infoOf ext).1.2
  have hmem := mem_enable hwell hrun
  rw [hcanonical] at hmem
  have hself : isKnown (insertKnown (infoOf ext) known) (infoOf ext).name = true :=
    (isKnown_insertKnown _ _).mpr (.inl rfl)
  intro a ha b hedge hb
  rw [hmem] at ha ⊢
  rcases ha with ha | ⟨-, hreach⟩ | ⟨-, -, rfl⟩
  · by_cases heq : (infoOf ext).name = a
    · exact .inr (.inl ⟨hb, .single (heq ▸ hedge)⟩)
    · have hold := (edge_insertKnown_of_ne heq).mp hedge
      rcases (isKnown_insertKnown _ b).mp hb with rfl | hb'
      · exact .inr (.inl ⟨hself, .refl⟩)
      · exact .inl (hclosed a ha b hold hb')
  · exact .inr (.inl ⟨hb, hreach.tail hedge⟩)
  · exact .inr (.inl ⟨hb, .single hedge⟩)

end Registration

/-! ## Runs -/

/-- The invariant of a run. -/
def Sound (s : TargetExtensionSet) : Prop := Settled s.known s.enabled

theorem sound_empty : Sound empty :=
  settled_empty ⟨nodup_nil, fun _ h => absurd h not_mem_nil,
    fun _ h => absurd h not_mem_nil⟩

theorem closed_iff (s : TargetExtensionSet) :
    Closed s ↔ ClosedUnder (impliesOf s.known) (isKnown s.known) s.enabled := by
  refine ⟨fun h a ha b hedge hb => h a ha b (.single hedge) hb, fun h a ha b hreach hb => ?_⟩
  induction hreach with
  | refl => exact ha
  | tail hreach hedge ih => exact h _ (ih hedge.1) _ hedge hb

theorem Sound.closed (h : Sound s) : Closed s :=
  (closed_iff s).mpr (Settled.closed h)

section Runs

variable (order : IterationOrder) {s : TargetExtensionSet}

/-- What is asked of one operation. -/
def OpRight (s : TargetExtensionSet) (op : Op) : Prop :=
  ∃ s', Steps order s op s' ∧ Sound s' ∧ Exact s op s'

theorem enable_right_iff (h : Sound s) (name : Name) :
    EnableFits s name ↔ ∃ fuel t, (enable s.known fuel s.enabled name).map Prod.snd = some t ∧
      Settled s.known t ∧ EnablesExactly s name ⟨s.known, t⟩ := by
  constructor
  · rintro ⟨hno, hknown⟩
    obtain ⟨t, hrun⟩ := enable_ends h.wellFormed hno s.enabled
    refine ⟨_, t, hrun, h.enable hrun, fun a => (mem_enable h.wellFormed hrun a).trans ?_⟩
    rw [← or_assoc, or_iff_left_of_imp]
    rintro ⟨hempty, hne, rfl⟩
    exact .inl ((hknown hempty).resolve_left hne)
  · rintro ⟨fuel, t, hrun, -, hexact⟩
    refine ⟨noCycle_of_enable h.wellFormed hrun, fun hempty => ?_⟩
    by_contra hcon
    obtain ⟨hne, hout⟩ := not_or.mp hcon
    have hmem := (mem_enable h.wellFormed hrun (normalizeName name)).mpr
      (.inr (.inr ⟨hempty, hne, rfl⟩))
    rcases (hexact _).mp hmem with hin | ⟨hk, -⟩
    · exact hout hin
    · rw [hempty] at hk
      cases hk

theorem disable_right_iff (h : Sound s) (name : Name) : DisableFits s name ↔ ∃ fuel t,
      (disable order s.known fuel s.enabled name).map Prod.snd = some t ∧
        Settled s.known t ∧ DisablesExactly s name ⟨s.known, t⟩ := by
  constructor
  · intro hfits
    obtain ⟨fuel, t, hrun⟩ := disable_ends order h.wellFormed name s.enabled
    obtain ⟨hsame, hmem⟩ := mem_disable order h.wellFormed h.nonempty hrun (Settled.closed h)
    refine ⟨fuel, t, hrun, h.disable order hrun, fun a => ?_⟩
    by_cases hname : s.known ≠ [] ∧ isKnown s.known (normalizeName name) = false
    · change a ∈ t ↔ _
      rw [hsame hname]
      exact ⟨fun ha => ⟨ha, hfits hname.1 hname.2 a ha⟩, And.left⟩
    · rw [not_and_or, not_not, Bool.not_eq_false] at hname
      exact hmem hname a
  · rintro ⟨fuel, t, hrun, -, hexact⟩ hknown hname a ha
    obtain ⟨hsame, -⟩ := mem_disable order h.wellFormed h.nonempty hrun (Settled.closed h)
    rw [← hsame ⟨hknown, hname⟩] at ha
    exact ((hexact a).mp ha).2

theorem map_result_eq_some {known : List TargetExtensionInfo} {f : Option (Bool × Finset Name)} :
    (f.map fun result => TargetExtensionSet.mk known result.2) = some s' ↔
      ∃ t, f.map Prod.snd = some t ∧ s' = ⟨known, t⟩ := by
  cases f with
  | none =>
    refine ⟨fun h => ?_, fun ⟨t, h, _⟩ => ?_⟩ <;> cases h
  | some r =>
    constructor
    · intro h
      exact ⟨r.2, rfl, (Option.some.inj h).symm⟩
    · rintro ⟨t, ht, rfl⟩
      rw [← Option.some.inj ht]
      rfl

theorem step_register (fuel : ℕ) (s : TargetExtensionSet) (ext : ExtensionDef) :
    step order fuel s (.register ext) =
      if ext.isDefault = true then
        (enable (insertKnown (infoOf ext) s.known) fuel s.enabled (infoOf ext).name).map
          fun result => ⟨insertKnown (infoOf ext) s.known, result.2⟩
      else some ⟨insertKnown (infoOf ext) s.known, s.enabled⟩ :=
  if_neg (canonical_infoOf ext).1.1

theorem register_right_iff (h : Sound s) (ext : ExtensionDef) :
    RegisterFits s ext ↔ ∃ s', Steps order s (.register ext) s' ∧ Sound s' := by
  have hwell := h.wellFormed.insert ext
  have hcanonical := (canonical_infoOf ext).1.2
  cases hdefault : ext.isDefault with
  | true =>
    constructor
    · intro hfits
      have hno : NoCycle (insertKnown (infoOf ext) s.known) (normalizeName (infoOf ext).name) := by
        rw [hcanonical]
        exact hfits.noCycle hdefault
      obtain ⟨t, hrun⟩ := enable_ends hwell hno s.enabled
      have hstep : step order (enableFuel (insertKnown (infoOf ext) s.known)) s (.register ext) =
          some ⟨insertKnown (infoOf ext) s.known, t⟩ := by
        rw [step_register, if_pos hdefault]
        exact map_result_eq_some.mpr ⟨t, hrun, rfl⟩
      exact ⟨_, ⟨_, hstep⟩, hwell, nil_notMem_enable hwell h.nonempty hrun,
        closedUnder_default (Settled.closed h) hwell hrun⟩
    · rintro ⟨s', ⟨fuel, hstep⟩, -⟩
      rw [step_register, if_pos hdefault] at hstep
      obtain ⟨t, hrun, -⟩ := map_result_eq_some.mp hstep
      have hno := noCycle_of_enable hwell hrun
      rw [hcanonical] at hno
      refine ⟨fun _ => hno, fun hfalse => ?_, fun hfalse => ?_⟩ <;> rw [hdefault] at hfalse <;>
        cases hfalse
  | false =>
    have hstep : ∀ fuel, step order fuel s (.register ext) =
        some ⟨insertKnown (infoOf ext) s.known, s.enabled⟩ := by
      intro fuel
      rw [step_register, if_neg (by rw [hdefault]; exact Bool.false_ne_true)]
    have hiff := closedUnder_register (Settled.closed h) (fun _ _ => known_of_implies) (infoOf ext)
    constructor
    · intro hfits
      exact ⟨_, ⟨0, hstep 0⟩, hwell, h.nonempty,
        hiff.mpr ⟨hfits.awaited hdefault, hfits.waits hdefault⟩⟩
    · rintro ⟨s', ⟨fuel, hrun⟩, hs'⟩
      rw [hstep fuel] at hrun
      rw [← Option.some.inj hrun] at hs'
      obtain ⟨hawaited, hwaits⟩ := hiff.mp (Settled.closed hs')
      refine ⟨fun htrue => ?_, fun _ => hawaited, fun _ => hwaits⟩
      rw [hdefault] at htrue
      cases htrue

theorem fits_iff (h : Sound s) (op : Op) : Fits s op ↔ OpRight order s op := by
  have hbridge : ∀ (f : ℕ → Option (Bool × Finset Name)) (P : TargetExtensionSet → Prop),
      (∃ fuel t, (f fuel).map Prod.snd = some t ∧ Settled s.known t ∧ P ⟨s.known, t⟩) ↔
        ∃ s', (∃ fuel, ((f fuel).map fun result => TargetExtensionSet.mk s.known result.2) =
          some s') ∧ Sound s' ∧ P s' := by
    intro f P
    constructor
    · rintro ⟨fuel, t, hrun, hsettled, hP⟩
      exact ⟨_, ⟨fuel, map_result_eq_some.mpr ⟨t, hrun, rfl⟩⟩, hsettled, hP⟩
    · rintro ⟨s', ⟨fuel, hrun⟩, hsettled, hP⟩
      obtain ⟨t, ht, rfl⟩ := map_result_eq_some.mp hrun
      exact ⟨fuel, t, ht, hsettled, hP⟩
  cases op with
  | register ext =>
    refine (register_right_iff order h ext).trans ?_
    exact exists_congr fun s' => and_congr_right fun _ => (and_iff_left trivial).symm
  | enable name => exact (enable_right_iff h name).trans (hbridge _ (EnablesExactly s name))
  | disable name =>
    exact (disable_right_iff order h name).trans (hbridge _ (DisablesExactly s name))
  | set name on =>
    cases on with
    | true => exact (enable_right_iff h name).trans (hbridge _ (EnablesExactly s name))
    | false =>
      exact (disable_right_iff order h name).trans (hbridge _ (DisablesExactly s name))
  | applyFeatureString spec =>
    refine (applyTokens_ends order h (featureTokens spec)).trans ⟨?_, ?_⟩
    · rintro ⟨fuel, r, hrun⟩
      exact ⟨⟨s.known, r.2⟩, ⟨fuel, Option.map_eq_some_iff.mpr ⟨r, hrun, rfl⟩⟩,
        h.applyTokens order hrun, trivial⟩
    · rintro ⟨s', ⟨fuel, hrun⟩, -⟩
      obtain ⟨r, hr, rfl⟩ := Option.map_eq_some_iff.mp hrun
      exact ⟨fuel, r, hr⟩
  | resetToDefaults =>
    refine (resetToDefaults_ends order h.wellFormed).trans ⟨?_, ?_⟩
    · rintro ⟨fuel, t, hrun⟩
      exact ⟨⟨s.known, t⟩, ⟨fuel, Option.map_eq_some_iff.mpr ⟨t, hrun, rfl⟩⟩,
        .resetToDefaults order h.wellFormed hrun, trivial⟩
    · rintro ⟨s', ⟨fuel, hrun⟩, -⟩
      obtain ⟨t, ht, rfl⟩ := Option.map_eq_some_iff.mp hrun
      exact ⟨fuel, t, ht⟩

/-- Registered names stay well formed, whatever else an operation does. -/
theorem Steps.sound (h : Sound s) {op : Op} (hstep : Steps order s op s') (hclosed : Closed s') :
    Sound s' := by
  have hclosed := (closed_iff s').mp hclosed
  obtain ⟨fuel, hstep⟩ := hstep
  cases op with
  | register ext =>
    have hwell := h.wellFormed.insert ext
    rw [step_register] at hstep
    split_ifs at hstep
    · obtain ⟨t, hrun, rfl⟩ := map_result_eq_some.mp hstep
      exact ⟨hwell, nil_notMem_enable hwell h.nonempty hrun, hclosed⟩
    · cases hstep
      exact ⟨hwell, h.nonempty, hclosed⟩
  | enable name =>
    obtain ⟨t, hrun, rfl⟩ := map_result_eq_some.mp hstep
    exact h.enable hrun
  | disable name =>
    obtain ⟨t, hrun, rfl⟩ := map_result_eq_some.mp hstep
    exact h.disable order hrun
  | set name on =>
    obtain ⟨t, hrun, rfl⟩ := map_result_eq_some.mp hstep
    exact h.set order hrun
  | applyFeatureString spec =>
    obtain ⟨r, hr, rfl⟩ := Option.map_eq_some_iff.mp hstep
    exact h.applyTokens order hr
  | resetToDefaults =>
    obtain ⟨t, ht, rfl⟩ := Option.map_eq_some_iff.mp hstep
    exact .resetToDefaults order h.wellFormed ht

theorem runRight_iff_of_sound (ops : List Op) (h : Sound s) :
    RunRight order s ops ↔ RunFits order s ops := by
  induction ops generalizing s with
  | nil => exact Iff.rfl
  | cons op ops ih =>
    constructor
    · rintro ⟨s', hstep, hclosed, hexact, hrest⟩
      have hsound := hstep.sound order h hclosed
      refine ⟨(fits_iff order h op).mpr ⟨s', hstep, hsound, hexact⟩, fun t ht => ?_⟩
      rw [ht.unique order hstep]
      exact (ih hsound).mp hrest
    · rintro ⟨hfits, hrest⟩
      obtain ⟨s', hstep, hsound, hexact⟩ := (fits_iff order h op).mp hfits
      exact ⟨s', hstep, hsound.closed, hexact, (ih hsound).mpr (hrest s' hstep)⟩

end Runs

/-- Every operation of a run ends, keeps the set closed and is exact iff every operation fits:
what is enabled leads to no cycle, nothing enabled waits for an extension that is registered, and
unknown names are neither enabled nor disabled where that has a meaning. -/
theorem extensionRuns_iff (order : IterationOrder) (ops : List Op) :
    RunRight order empty ops ↔ RunFits order empty ops :=
  runRight_iff_of_sound order ops sound_empty

def implyingDefault : ExtensionDef :=
  ⟨⟨[97], by decide, forall_mem_singleton.mpr (by decide)⟩, true,
    [⟨[98], by decide, forall_mem_singleton.mpr (by decide)⟩]⟩

def impliedLater : ExtensionDef :=
  ⟨⟨[98], by decide, forall_mem_singleton.mpr (by decide)⟩, false, []⟩

def declarationOrder : IterationOrder := ⟨id, fun _ => .refl _⟩

/-- The file is accepted, and when both are registered the set is not closed. -/
theorem implyingDefault_not_closed :
    extensionErrors [implyingDefault, impliedLater] = [] ∧
      ¬RunRight declarationOrder empty [.register implyingDefault, .register impliedLater] := by
  refine ⟨by decide, ?_⟩
  rintro ⟨s, hs, -, -, t, ht, hclosed, -, -⟩
  have hfirst : Steps declarationOrder empty (.register implyingDefault)
      ⟨[⟨[97], true, [[98]]⟩], {[97]}⟩ := ⟨2, by decide⟩
  have hsecond : Steps declarationOrder ⟨[⟨[97], true, [[98]]⟩], {[97]}⟩ (.register impliedLater)
      ⟨[⟨[97], true, [[98]]⟩, ⟨[98], false, []⟩], {[97]}⟩ := ⟨0, by decide⟩
  rw [hs.unique _ hfirst] at ht
  rw [ht.unique _ hsecond] at hclosed
  have hmem := hclosed [97] (by decide) [98] (.single ⟨by decide, by decide⟩) (by decide)
  exact absurd hmem (by decide)

end EzPacker.Targets
