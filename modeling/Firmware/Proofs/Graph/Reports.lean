import Firmware.Proofs.Graph.Providers
import Firmware.Proofs.Graph.Sorting
import Firmware.Proofs.Graph.Unplaced
import Mathlib.Data.Sym.Sym2
/-!
What is reported about instances that cannot be ordered.  Each instance too many of a kind
that allows one is reported, each two kinds that exclude each other, and each kind that lacks
one it depends on; the last two once, at the first instance that has reason to.  Nothing
else is reported.
-/

namespace Firmware

section Classes

variable {α κ : Type} [DecidableEq κ] {key : α → κ} {seen : List κ} {list : List α} {element : α}

theorem firstByKey_sublist (key : α → κ) (seen : List κ) (list : List α) :
    (firstByKey key seen list).Sublist list := by
  induction list generalizing seen with
  | nil => exact .slnil
  | cons first rest ih =>
      rw [firstByKey]
      split
      · exact (ih seen).cons first
      · exact (ih (key first :: seen)).cons_cons first

theorem key_not_mem_seen (h : element ∈ firstByKey key seen list) : key element ∉ seen := by
  induction list generalizing seen with
  | nil => simp [firstByKey] at h
  | cons first rest ih =>
      rw [firstByKey] at h
      split at h
      · exact ih h
      · next hnew =>
          rcases List.mem_cons.mp h with rfl | hrest
          · exact hnew
          · exact fun hseen => ih hrest (.tail _ hseen)

theorem nodup_keys_firstByKey (key : α → κ) (seen : List κ) (list : List α) :
    ((firstByKey key seen list).map key).Nodup := by
  induction list generalizing seen with
  | nil => exact .nil
  | cons first rest ih =>
      rw [firstByKey]
      split
      · exact ih seen
      · refine List.nodup_cons.mpr ⟨fun hmem => ?_, ih (key first :: seen)⟩
        obtain ⟨later, hlater, hkey⟩ := List.mem_map.mp hmem
        exact key_not_mem_seen hlater (hkey ▸ List.mem_cons_self)

theorem exists_mem_firstByKey {before : α → α → Prop} [Std.Refl before]
    (h : list.Pairwise before) (hmem : element ∈ list) (hnew : key element ∉ seen) :
    ∃ kept ∈ firstByKey key seen list, key kept = key element ∧ before kept element := by
  induction list generalizing seen with
  | nil => exact absurd hmem List.not_mem_nil
  | cons first rest ih =>
      obtain ⟨hfirst, hrest⟩ := List.pairwise_cons.mp h
      rw [firstByKey]
      rcases List.mem_cons.mp hmem with rfl | hlater
      · rw [if_neg hnew]
        exact ⟨element, List.mem_cons_self, rfl, Std.Refl.refl element⟩
      · split
        · exact ih hrest hlater hnew
        · by_cases hkey : key first = key element
          · exact ⟨first, List.mem_cons_self, hkey, hfirst element hlater⟩
          · have hother : key element ∉ key first :: seen := by simp [Ne.symm hkey, hnew]
            obtain ⟨kept, hkept, hsame⟩ := ih hrest hlater hother
            exact ⟨kept, .tail _ hkept, hsame⟩

end Classes

namespace Graph

variable {instances passed rest : List Instance} {inst : Instance} {position : Nat} {kind : String}
  {seen : List String}

/-- A kind that the instance at a position names. -/
structure Finding where
  position : Nat
  inst : Instance
  kind : String

variable {finding : Finding}

/-- The kinds that instances name, in document order. -/
def findings (select : Instance → List String) (instances : List Instance) : List Finding :=
  instances.zipIdx.flatMap fun (inst, position) => (select inst).map (⟨position, inst, ·⟩)

theorem mem_findings {select : Instance → List String} : finding ∈ findings select instances ↔
    instances[finding.position]? = some finding.inst ∧ finding.kind ∈ select finding.inst := by
  simp only [findings, List.mem_flatMap, Prod.exists, List.mem_zipIdx_iff_getElem?, List.mem_map]
  constructor
  · rintro ⟨inst, position, hpresent, kind, hkind, rfl⟩
    exact ⟨hpresent, hkind⟩
  · rintro ⟨hpresent, hkind⟩
    exact ⟨_, _, hpresent, _, hkind, rfl⟩

theorem pairwise_findings (select : Instance → List String) (instances : List Instance) :
    (findings select instances).Pairwise fun a b => a.position ≤ b.position := by
  refine pairwise_flatMap_zipIdx fun entry finding hmem => ?_
  obtain ⟨_, _, rfl⟩ := List.mem_map.mp hmem
  rfl

theorem map_findings (select : Instance → List String) (instances : List Instance) :
    (findings select instances).map (fun finding => (finding.inst, finding.kind)) =
      instances.flatMap fun inst => (select inst).map (inst, ·) := by
  conv_rhs => rw [← List.zipIdx_map_fst 0 instances, List.flatMap_map]
  simp [findings, List.map_flatMap, Function.comp_def]

/-- One finding for each key that there is, the first one of it.  Findings are told in document
order, and those of one instance in the order in which its kind names them. -/
structure OneForEach {κ : Type} (instances : List Instance) (names : Instance → List String)
    (holds : Finding → Prop) (key : Finding → κ) (reported : List Finding) : Prop where
  listed : reported.Sublist (findings names instances)
  found : ∀ finding ∈ reported, holds finding
  distinct : (reported.map key).Nodup
  first : ∀ finding, holds finding →
    ∃ earlier ∈ reported, key earlier = key finding ∧ earlier.position ≤ finding.position

/-- The first finding of each key is reported; keys may be told in another way. -/
theorem oneForEach_firstByKey {κ κ' : Type} [DecidableEq κ] {names : Instance → List String}
    (test : Instance → String → Bool) {holds : Finding → Prop} {key : Finding → κ}
    {key' : Finding → κ'} (hkey : ∀ a b, key a = key b ↔ key' a = key' b)
    (hholds : ∀ finding, holds finding ↔ instances[finding.position]? = some finding.inst ∧
      finding.kind ∈ (names finding.inst).filter (test finding.inst)) :
    OneForEach instances names holds key'
      (firstByKey key [] (findings (fun inst => (names inst).filter (test inst)) instances)) where
  listed := (firstByKey_sublist _ _ _).trans
    (List.Sublist.flatMap_right _ fun _ _ => (List.filter_sublist).map _)
  found finding hmem :=
    (hholds finding).mpr (mem_findings.mp ((firstByKey_sublist _ _ _).subset hmem))
  distinct := by
    have hnodup := nodup_keys_firstByKey key []
      (findings (fun inst => (names inst).filter (test inst)) instances)
    refine List.pairwise_map.mpr ((List.pairwise_map.mp hnodup).imp fun {a b} hne => ?_)
    exact fun heq => hne ((hkey a b).mpr heq)
  first finding hfound := by
    have : Std.Refl fun a b : Finding => a.position ≤ b.position := ⟨fun _ => Nat.le_refl _⟩
    have hmem : finding ∈ findings (fun inst => (names inst).filter (test inst)) instances :=
      mem_findings.mpr ((hholds finding).mp hfound)
    obtain ⟨kept, hkept, hsame, hle⟩ := exists_mem_firstByKey (pairwise_findings _ instances) hmem
      (List.not_mem_nil (a := key finding))
    exact ⟨kept, hkept, (hkey kept finding).mp hsame, hle⟩

theorem isConfigured_eq_true_iff :
    isConfigured instances kind = true ↔ ∃ other ∈ instances, other.kind = kind := by
  simp [isConfigured]

theorem unorderedPair_comm (a b : String) : unorderedPair a b = unorderedPair b a := by
  unfold unorderedPair
  rcases Std.lt_trichotomy a b with hlt | rfl | hgt
  · rw [if_pos hlt, if_neg (Std.not_gt_of_lt hlt)]
  · rfl
  · rw [if_neg (Std.not_gt_of_lt hgt), if_pos hgt]

/-- Two kinds in a fixed order are two kinds in any order. -/
theorem unorderedPair_eq_iff {a b c d : String} :
    unorderedPair a b = unorderedPair c d ↔ s(a, b) = s(c, d) := by
  have hpair : ∀ a b, s((unorderedPair a b).1, (unorderedPair a b).2) = s(a, b) := by
    intro a b
    unfold unorderedPair
    split
    · rfl
    · exact Sym2.eq_swap
  constructor
  · intro h
    rw [← hpair a b, h, hpair]
  · intro h
    rcases Sym2.eq_iff.mp h with ⟨rfl, rfl⟩ | ⟨rfl, rfl⟩
    · rfl
    · exact unorderedPair_comm a b

/-- Whether the kind of the instance at a position allows one instance and has an earlier
one. -/
def IsRepeated (instances : List Instance) (position : Nat) (inst : Instance) : Prop :=
  instances[position]? = some inst ∧ inst.declaration.isMulti = false ∧
    ∃ earlier other, earlier < position ∧ instances[earlier]? = some other ∧
      other.kind = inst.kind

/-- Whether an instance allows one of its kind and there is one before its position. -/
def isTooMany (instances : List Instance) (entry : Instance × Nat) : Bool :=
  isConfigured (instances.take entry.2) entry.1.kind && !entry.1.declaration.isMulti

theorem mem_filter_isTooMany : (inst, position) ∈ instances.zipIdx.filter (isTooMany instances) ↔
    IsRepeated instances position inst := by
  have hearlier : (∃ other ∈ instances.take position, other.kind = inst.kind) ↔
      ∃ earlier other, earlier < position ∧ instances[earlier]? = some other ∧
        other.kind = inst.kind := by
    simp only [List.mem_iff_getElem?, List.getElem?_take, Option.ite_none_right_eq_some]
    grind
  rw [List.mem_filter, List.mem_zipIdx_iff_getElem?, isTooMany, Bool.and_eq_true,
    isConfigured_eq_true_iff, hearlier, Bool.not_eq_true', IsRepeated, and_comm (b := _ = false)]

/-- Instances are reported that are too many together with those passed before. -/
theorem repetitions_eq (hseen : ∀ kind, kind ∈ seen ↔ isConfigured passed kind = true) :
    repetitions seen rest =
      ((rest.zipIdx passed.length).filter (isTooMany (passed ++ rest))).map
        fun entry => repeated entry.1 := by
  induction rest generalizing passed seen with
  | nil => rfl
  | cons inst rest ih =>
      have hlater : ∀ kind,
          kind ∈ inst.kind :: seen ↔ isConfigured (passed ++ [inst]) kind = true := by
        intro kind
        rw [List.mem_cons, hseen, isConfigured_eq_true_iff, isConfigured_eq_true_iff]
        grind
      have hrest := ih hlater
      rw [List.append_assoc, List.singleton_append, List.length_append,
        List.length_singleton] at hrest
      have hfirst : isTooMany (passed ++ inst :: rest) (inst, passed.length) = true ↔
          inst.kind ∈ seen ∧ !inst.declaration.isMulti := by
        rw [isTooMany, List.take_left, Bool.and_eq_true, hseen]
      rw [repetitions, hrest, List.zipIdx_cons, List.filter_cons]
      simp only [hfirst]
      split <;> rfl

def clashProblem (finding : Finding) : Problem :=
  ⟨.conflictingComponents, some finding.inst.path,
    "`" ++ finding.inst.kind ++ "` cannot be used together with `" ++ finding.kind ++ "`"⟩

def gapProblem (finding : Finding) : Problem :=
  ⟨.unsatisfiedDependency, some finding.inst.path,
    "`" ++ finding.inst.kind ++ "` requires the component `" ++ finding.kind ++ "`"⟩

/-- Whether an instance names a configured kind as one that it excludes. -/
def Clashes (instances : List Instance) (finding : Finding) : Prop :=
  instances[finding.position]? = some finding.inst ∧
    finding.kind ∈ finding.inst.declaration.conflicts ∧
    ∃ other ∈ instances, other.kind = finding.kind

/-- Whether an instance depends on another kind that is not configured. -/
def Lacks (instances : List Instance) (finding : Finding) : Prop :=
  instances[finding.position]? = some finding.inst ∧
    finding.kind ∈ finding.inst.declaration.dependencies ∧ finding.kind ≠ finding.inst.kind ∧
    ∀ other ∈ instances, other.kind ≠ finding.kind

/-- Kinds that exclude each other are reported once, whichever of them says so. -/
theorem exists_conflicts_eq (instances : List Instance) :
    ∃ clashes, conflicts instances = clashes.map clashProblem ∧
      OneForEach instances (·.declaration.conflicts) (Clashes instances)
        (fun finding => s(finding.inst.kind, finding.kind)) clashes := by
  have hholds : ∀ finding, Clashes instances finding ↔
      instances[finding.position]? = some finding.inst ∧
        finding.kind ∈ finding.inst.declaration.conflicts.filter (isConfigured instances) := by
    intro finding
    rw [Clashes, List.mem_filter, isConfigured_eq_true_iff]
  refine ⟨_, ?_, oneForEach_firstByKey (fun _ => isConfigured instances)
    (fun _ _ => unorderedPair_eq_iff) hholds⟩
  unfold conflicts
  simp only
  rw [← map_findings fun inst => inst.declaration.conflicts.filter (isConfigured instances),
    firstByKey_map (fun finding : Finding => unorderedPair finding.inst.kind finding.kind)
      (fun _ => rfl), List.map_map]
  rfl

/-- Each kind that is lacked by another is reported once. -/
theorem exists_unsatisfied_eq (instances : List Instance) :
    ∃ gaps, unsatisfied instances = gaps.map gapProblem ∧
      OneForEach instances (·.declaration.dependencies) (Lacks instances)
        (fun finding => (finding.inst.kind, finding.kind)) gaps := by
  have hholds : ∀ finding, Lacks instances finding ↔
      instances[finding.position]? = some finding.inst ∧
        finding.kind ∈ finding.inst.declaration.dependencies.filter fun dependency =>
          dependency != finding.inst.kind && !isConfigured instances dependency := by
    simp [Lacks, isConfigured]
  refine ⟨_, ?_, oneForEach_firstByKey (fun inst dependency =>
    dependency != inst.kind && !isConfigured instances dependency) (fun _ _ => Iff.rfl) hholds⟩
  unfold unsatisfied
  simp only
  rw [← map_findings fun inst => inst.declaration.dependencies.filter fun dependency =>
      dependency != inst.kind && !isConfigured instances dependency,
    firstByKey_map (fun finding : Finding => (finding.inst.kind, finding.kind))
      (fun _ => rfl), List.map_map]
  rfl

theorem exists_repetitions_eq (instances : List Instance) :
    ∃ repeats : List (Instance × Nat),
      repetitions [] instances = repeats.map (fun entry => repeated entry.1) ∧
        (repeats.Pairwise fun a b => a.2 < b.2) ∧
        ∀ inst position, (inst, position) ∈ repeats ↔ IsRepeated instances position inst := by
  have hnone : ∀ kind, kind ∈ ([] : List String) ↔ isConfigured [] kind = true := by
    simp [isConfigured]
  exact ⟨_, repetitions_eq hnone, (pairwise_lt_zipIdx _).sublist List.filter_sublist,
    fun _ _ => mem_filter_isTooMany⟩

/-- Either there is nothing to report about instances, and they are a graph, or what is
reported is, in this order, each instance too many of a kind that allows one, each two
configured kinds that exclude each other, whichever of them says so, and each kind with a kind
that it depends on and that is not configured. -/
theorem ofInstances_reports (instances : List Instance) :
    ∃ (sorted : List Instance) (repeats : List (Instance × Nat)) (clashes gaps : List Finding),
      SortsStably instances sorted ∧
        (repeats.Pairwise fun a b => a.2 < b.2) ∧
        (∀ inst position, (inst, position) ∈ repeats ↔ IsRepeated sorted position inst) ∧
        OneForEach sorted (·.declaration.conflicts) (Clashes sorted)
          (fun finding => s(finding.inst.kind, finding.kind)) clashes ∧
        OneForEach sorted (·.declaration.dependencies) (Lacks sorted)
          (fun finding => (finding.inst.kind, finding.kind)) gaps ∧
        (∀ reported, ofInstances instances = .error reported ↔ reported ≠ [] ∧
          reported = repeats.map (fun entry => repeated entry.1) ++ clashes.map clashProblem ++
            gaps.map gapProblem) ∧
        ((∃ graph, ofInstances instances = .ok graph) ↔
          repeats = [] ∧ clashes = [] ∧ gaps = []) := by
  obtain ⟨repeats, hrepeats, hordered, hrepeated⟩ :=
    exists_repetitions_eq (sortByIndex instances)
  obtain ⟨clashes, hclashes, honce⟩ := exists_conflicts_eq (sortByIndex instances)
  obtain ⟨gaps, hgaps, honce'⟩ := exists_unsatisfied_eq (sortByIndex instances)
  have hproblems : problems (sortByIndex instances) =
      repeats.map (fun entry => repeated entry.1) ++ clashes.map clashProblem ++
        gaps.map gapProblem := by rw [problems, hrepeats, hclashes, hgaps]
  refine ⟨_, repeats, clashes, gaps, sortByIndex_sortsStably instances, hordered, hrepeated, honce,
    honce', fun reported => ?_, ?_⟩
  · rw [ofInstances, hproblems]
    exact Problem.settle_eq_error_iff
  · simp only [ofInstances, hproblems, Problem.settle_eq_ok_iff, exists_and_left, exists_eq',
      and_true, List.append_eq_nil_iff, List.map_eq_nil_iff, and_assoc]

end Graph

end Firmware
