import DistanceField.Proofs.Agreement
import DistanceField.Proofs.Renaming

/-!
# The name of the input

The name that the options give to the input is a name like any other, so the choice of
another one gives a renamed fragment. The compiler does not keep the generated names
apart from it: an input that is called `r0` is overwritten by the first statement. Where
no statement has the name of the input, the name makes no difference.

* `Shape.compile_eq_rename`: fragments under two names differ by a renaming.
* `Code.eval_rename`, `runStatements_rename`: renamed code has the same values, as long as
  different variables keep different names.
* `Shape.ignoresInputName_iff`: when the name of the input makes no difference.
* `Shape.inputName_overwritten`: an input that is overwritten.
-/

namespace DistanceField

open Shader

/-! ## Renamed fragments -/

def Shader.Fragment.rename (f : String → String) (F : Fragment) : Fragment :=
  ⟨F.input.rename f, F.statements.map (Statement.rename f), F.result.rename f⟩

theorem Shader.Emission.nameOf_ne {x : String} (h : x.toList.head? ≠ some 'r') (n : Nat) :
    Emission.nameOf n ≠ x := by
  rintro rfl
  simp [Emission.nameOf] at h

/-- Calls the input `input` instead of `P`. -/
def inputRenaming (input : String) : Renaming where
  name x := if x = "P" then input else x
  shift := 0
  name_nameOf n := if_neg (Emission.nameOf_ne (by decide) n)

theorem inputRenaming_input (input : String) : (inputRenaming input).name "P" = input := by
  simp [inputRenaming]

/-- **Another name for the input gives the renamed fragment**, or the same error. -/
theorem Shape.compile_eq_rename (s : Shape) (options : Options) :
    s.compile options = (s.compile { options with inputName := "P" }).map
      (Fragment.rename (inputRenaming options.inputName).name) := by
  have hinput : Typed.rename (inputRenaming options.inputName).name (.input .vec2 "P") =
      .input .vec2 options.inputName := by
    rw [Typed.rename, Typed.input, Code.rename, inputRenaming_input]
    rfl
  have hempty : (inputRenaming options.inputName).emission [] .empty = .empty := rfl
  have hemit := Shape.emitDistance_commutes (inputRenaming options.inputName) [] s options.maxDepth
    (.input .vec2 "P") [.root] .empty
  rw [hinput, hempty] at hemit
  unfold Shape.compile
  cases s.dist with
  | error err => rfl
  | ok f =>
    dsimp only
    rw [hemit]
    cases s.emitDistance options.maxDepth (.input .vec2 "P") [.root] .empty with
    | error err e => rfl
    | ok v e =>
      dsimp only [Except.map, Fragment.rename]
      rw [hinput]
      rfl

/-! ## Renamed code has the same values -/

section

variable {f : String → String} {σ τ : Store}

theorem evalCodes_rename {cs : List Code} (h : ∀ c ∈ cs, (c.rename f).eval τ = c.eval σ) :
    evalCodes τ (Code.renameAll f cs) = evalCodes σ cs := by
  induction cs with
  | nil => rfl
  | cons c cs ih =>
    rw [Code.renameAll, evalCodes, evalCodes, h c List.mem_cons_self,
      ih fun d hd => h d (List.mem_cons_of_mem _ hd)]

theorem evalParts_rename {ty : Ty} {cs : List Code} (h : ∀ c ∈ cs, (c.rename f).eval τ = c.eval σ) :
    evalParts τ ty (Code.renameAll f cs) = evalParts σ ty cs := by
  induction cs with
  | nil => rfl
  | cons c cs ih =>
    rw [Code.renameAll, evalParts, evalParts, h c List.mem_cons_self,
      ih fun d hd => h d (List.mem_cons_of_mem _ hd)]

/-- Under their new names, the variables `xs` have the values of the old ones. -/
def Shader.Store.Renamed (f : String → String) (xs : List String) (σ τ : Store) : Prop :=
  ∀ x ∈ xs, ∃ v, σ.lookup x = some v ∧ τ.lookup (f x) = some v

theorem Shader.Store.Renamed.subset {xs ys : List String} (h : Store.Renamed f xs σ τ) (hsub : ys ⊆ xs) :
    Store.Renamed f ys σ τ :=
  fun x hx => h x (hsub hx)

theorem Shader.Code.eval_rename {c : Code} (h : Store.Renamed f c.vars σ τ) :
    (c.rename f).eval τ = c.eval σ := by
  induction c with
  | var x =>
    obtain ⟨v, hσ, hτ⟩ := h x List.mem_cons_self
    rw [rename, eval, eval, hσ, hτ]
  | num x => rfl
  | bool b => rfl
  | construct ty parts ih =>
    have hparts : ∀ c ∈ parts, (c.rename f).eval τ = c.eval σ :=
      fun c hc => ih c hc fun x hx => h x (Code.mem_varsOfAll.2 ⟨c, hc, hx⟩)
    rw [rename, eval, eval, evalParts_rename hparts]
  | unary op e ih => rw [rename, eval, eval, ih h]
  | binary op l r ihl ihr =>
    rw [rename, eval, eval, ihl (h.subset (List.subset_append_left _ _)),
      ihr (h.subset (List.subset_append_right _ _))]
  | call b args ih =>
    have hargs : ∀ c ∈ args, (c.rename f).eval τ = c.eval σ :=
      fun c hc => ih c hc fun x hx => h x (Code.mem_varsOfAll.2 ⟨c, hc, hx⟩)
    rw [rename, eval, eval, evalCodes_rename hargs]
  | component e i ih => rw [rename, eval, eval, ih h]
  | index e i ihe ihi =>
    rw [rename, eval, eval, ihe (h.subset (List.subset_append_left _ _)),
      ihi (h.subset (List.subset_append_right _ _))]
  | select c a b ihc iha ihb =>
    rw [rename, eval, eval,
      ihc fun x hx => h x (List.mem_append_left _ (List.mem_append_left _ hx)),
      iha fun x hx => h x (List.mem_append_left _ (List.mem_append_right _ hx)),
      ihb fun x hx => h x (List.mem_append_right _ hx)]

/-- The assignment of a variable whose new name is none of the others. -/
theorem Shader.Store.Renamed.assign {xs : List String} (h : Store.Renamed f xs σ τ) {y : String}
    (hy : f y ∉ xs.map f) (v : Value) :
    Store.Renamed f (xs ++ [y]) (σ.assign y v) (τ.assign (f y) v) := by
  intro x hx
  rcases List.mem_append.1 hx with hx | hx
  · have hne : f x ≠ f y := fun heq => hy (heq ▸ List.mem_map_of_mem hx)
    have hne' : x ≠ y := fun heq => hne (congrArg f heq)
    rw [lookup_assign_of_ne hne, lookup_assign_of_ne hne']
    exact h x hx
  · obtain rfl := List.mem_singleton.1 hx
    exact ⟨v, lookup_assign_self .., lookup_assign_self ..⟩

/-- **Renamed statements do the same**, as long as the new names are different. -/
theorem runStatements_rename {Γ : Declared} {ss : List Statement} (h : StraightLine Γ ss)
    (hnodup : ((Γ.map Prod.fst ++ ss.map Statement.name).map f).Nodup)
    (hστ : Store.Renamed f (Γ.map Prod.fst) σ τ) :
    match runStatements ss σ with
    | .ok _ σ' => ∃ τ', runStatements (ss.map (Statement.rename f)) τ = .ok () τ' ∧
        Store.Renamed f ((Γ ++ ss.map Statement.declared).map Prod.fst) σ' τ'
    | .error e _ => ∃ τ', runStatements (ss.map (Statement.rename f)) τ = .error e τ' := by
  induction ss generalizing σ τ Γ with
  | nil => exact ⟨τ, rfl, by simpa using hστ⟩
  | cons s ss ih =>
    -- straight-line code reads declared variables only, and those are bound in both stores
    have hcode : (s.code.rename f).eval τ = s.code.eval σ := by
      refine Code.eval_rename (hστ.subset fun x hx => ?_)
      obtain ⟨ty, hty⟩ := h.1.mem_declared hx
      exact List.mem_map.2 ⟨_, hty, rfl⟩
    rw [List.map_cons, runStatements, runStatements]
    rw [show (s.rename f).code = s.code.rename f from rfl, hcode]
    cases s.code.eval σ with
    | error e => exact ⟨τ, rfl⟩
    | ok v =>
      have hfresh : f s.name ∉ (Γ.map Prod.fst).map f := by
        rw [List.map_append] at hnodup
        exact fun hmem => (List.nodup_append.1 hnodup).2.2 _ hmem _ List.mem_cons_self rfl
      have hassign := hστ.assign hfresh v
      have hrest := ih (Γ := Γ ++ [s.declared]) h.2 (by simpa [Statement.declared] using hnodup)
        (by simpa [Statement.declared] using hassign)
      simpa [Statement.rename] using hrest

end

/-- A fragment under new names that are different has the same values and faults. -/
theorem Shape.evaluate_rename {s : Shape} {options : Options} {F : Fragment}
    (hF : s.compile options = .ok F) {f : String → String}
    (hnodup : ((options.inputName :: F.statements.map Statement.name).map f).Nodup) (point : Value) :
    (F.rename f).evaluate point = F.evaluate point := by
  obtain ⟨hstraight, hatom, -⟩ := Shape.compile_sound hF
  obtain ⟨-, -, -, -, -, -, -, -, hinput⟩ := Shape.compile_eq_ok hF
  have hstart : Store.Renamed f [options.inputName] [(options.inputName, point)]
      [(f options.inputName, point)] := by
    intro x hx
    obtain rfl := List.mem_singleton.1 hx
    exact ⟨point, List.lookup_cons_self, List.lookup_cons_self⟩
  have hrun := runStatements_rename hstraight hnodup hstart
  unfold Fragment.evaluate
  rw [show (F.rename f).input = F.input.rename f from rfl, hinput]
  dsimp only [Fragment.rename, Typed.rename, Typed.input, Code.rename]
  cases hσ : runStatements F.statements [(options.inputName, point)] with
  | error e σ' =>
    rw [hσ] at hrun
    obtain ⟨τ', hτ⟩ := hrun
    rw [hτ]
  | ok u σ' =>
    rw [hσ] at hrun
    obtain ⟨τ', hτ, hrenamed⟩ := hrun
    rw [hτ]
    refine Code.eval_rename (hrenamed.subset fun x hx => ?_)
    obtain ⟨ty, hty⟩ := hatom.mem_declared hx
    exact List.mem_map.2 ⟨_, hty, rfl⟩

/-! ## The name of the input -/

section

variable {s : Shape} {options : Options} {F : Fragment}

/-- The statements have the generated names, one after the other. -/
theorem Shape.forall_names_iff (h : s.compile options = .ok F) (P : String → Prop) :
    (∀ st ∈ F.statements, P st.name) ↔ ∀ i < F.statements.length, P (Emission.nameOf i) := by
  obtain ⟨-, -, hnames⟩ := Shape.compile_sound h
  rw [← List.forall_mem_map, hnames, List.forall_mem_map]
  simp only [List.mem_range]

/-- If no statement has the name of the input, the values are those under `P`. -/
theorem Shape.evaluate_eq_standard {F₀ : Fragment}
    (hF₀ : s.compile { options with inputName := "P" } = .ok F₀)
    (hkeeps : ∀ i < F₀.statements.length, Emission.nameOf i ≠ options.inputName) (point : Value) :
    (F₀.rename (inputRenaming options.inputName).name).evaluate point = F₀.evaluate point := by
  refine Shape.evaluate_rename hF₀ ?_ point
  obtain ⟨-, -, hnames⟩ := Shape.compile_sound hF₀
  have hgenerated : (F₀.statements.map Statement.name).map (inputRenaming options.inputName).name =
      (List.range F₀.statements.length).map Emission.nameOf := by
    rw [hnames, List.map_map]
    exact List.map_congr_left fun i _ => (inputRenaming options.inputName).name_nameOf i
  -- the renaming moves only the input, so a clash is one between the input and a statement
  rw [List.map_cons, hgenerated, List.nodup_cons]
  refine ⟨fun hmem => ?_, ?_⟩
  · obtain ⟨i, hi, heq⟩ := List.mem_map.1 hmem
    exact hkeeps i (List.mem_range.1 hi) (heq.trans (inputRenaming_input _))
  · exact List.pairwise_map.2 (List.nodup_range.imp fun hne heq => hne (Emission.nameOf_injective heq))

end

/-- The two evaluations give the same value, or they have a fault of the same kind. -/
def OutcomesAgree : Except (Failure Fault) Value → Except (Failure Fault) Value → Prop
  | .ok v, .ok w => v = w
  | .error (.report f), .error (.report g) => f.kind = g.kind
  | .error .outOfBounds, .error .outOfBounds => True
  | _, _ => False

theorem OutcomesAgree.refl (x : Except (Failure Fault) Value) : OutcomesAgree x x := by
  cases x with
  | ok v => rfl
  | error e =>
    cases e with
    | report f => rfl
    | outOfBounds => trivial

/-- **The name of the input makes no difference between the options**: the shape compiles
under both or under neither, the fragments have the same values and kinds of faults at
every point, and no statement redefines the input. -/
structure Shape.IgnoresInputName (s : Shape) (o₁ o₂ : Options) : Prop where
  compiles : (s.compile o₁).isOk = (s.compile o₂).isOk
  evaluates : ∀ F₁ F₂, s.compile o₁ = .ok F₁ → s.compile o₂ = .ok F₂ →
    ∀ point, OutcomesAgree (F₁.evaluate point) (F₂.evaluate point)
  keeps₁ : ∀ F, s.compile o₁ = .ok F → ∀ st ∈ F.statements, st.name ≠ o₁.inputName
  keeps₂ : ∀ F, s.compile o₂ = .ok F → ∀ st ∈ F.statements, st.name ≠ o₂.inputName

/-- **When the name of the input makes no difference.** Both names lead to the same error
or to fragments. The name makes no difference exactly if neither name is one of the names
generated for the statements. -/
theorem Shape.ignoresInputName_iff (s : Shape) (o₁ o₂ : Options) (hdepth : o₁.maxDepth = o₂.maxDepth) :
    (∀ err, s.compile o₁ = .error err ↔ s.compile o₂ = .error err) ∧
      (s.IgnoresInputName o₁ o₂ ↔ ∀ F, s.compile o₁ = .ok F → ∀ i < F.statements.length,
        Emission.nameOf i ≠ o₁.inputName ∧ Emission.nameOf i ≠ o₂.inputName) := by
  -- Both fragments are renamings of the one under `P`, which decides whether there are any.
  have hoptions : { o₁ with inputName := "P" } = { o₂ with inputName := "P" } := by rw [hdepth]
  have h₁ := s.compile_eq_rename o₁
  have h₂ := s.compile_eq_rename o₂
  rw [← hoptions] at h₂
  cases h₀ : s.compile { o₁ with inputName := "P" } with
  | error err =>
    rw [h₀] at h₁ h₂
    dsimp only [Except.map] at h₁ h₂
    rw [h₁, h₂]
    refine ⟨fun _ => Iff.rfl, fun _ => nofun, fun _ => ?_⟩
    exact ⟨by rw [h₁, h₂], by rw [h₁]; nofun, by rw [h₁]; nofun, by rw [h₂]; nofun⟩
  | ok F₀ =>
    rw [h₀] at h₁ h₂
    dsimp only [Except.map] at h₁ h₂
    have hlen (f : String → String) : (F₀.rename f).statements.length = F₀.statements.length :=
      List.length_map _
    have hkeeps₁ := Shape.forall_names_iff h₁ (· ≠ o₁.inputName)
    have hkeeps₂ := Shape.forall_names_iff h₂ (· ≠ o₂.inputName)
    rw [hlen] at hkeeps₁ hkeeps₂
    refine ⟨by simp [h₁, h₂], fun h F hF i hi => ?_, fun h => ?_⟩
    · obtain rfl : F₀.rename _ = F := Except.ok.inj (h₁.symm.trans hF)
      rw [hlen] at hi
      exact ⟨hkeeps₁.1 (h.keeps₁ _ h₁) i hi, hkeeps₂.1 (h.keeps₂ _ h₂) i hi⟩
    · have hnames := h _ h₁
      rw [hlen] at hnames
      refine ⟨by rw [h₁, h₂]; rfl, fun F₁ F₂ hF₁ hF₂ point => ?_, fun F hF => ?_, fun F hF => ?_⟩
      · obtain rfl := Except.ok.inj (h₁.symm.trans hF₁)
        obtain rfl := Except.ok.inj (h₂.symm.trans hF₂)
        rw [Shape.evaluate_eq_standard h₀ fun i hi => (hnames i hi).1,
          Shape.evaluate_eq_standard (hoptions ▸ h₀) fun i hi => (hnames i hi).2]
        exact .refl _
      · obtain rfl := Except.ok.inj (h₁.symm.trans hF)
        exact hkeeps₁.2 fun i hi => (hnames i hi).1
      · obtain rfl := Except.ok.inj (h₂.symm.trans hF)
        exact hkeeps₂.2 fun i hi => (hnames i hi).2

/-- Two names that are not generated, on the shape of two circles. -/
theorem Shape.ignoresInputName_twoCircles :
    ∃ s F, Shape.ofSource? twoCircles .standard 0 = some s ∧ s.compile .standard = .ok F ∧
      s.IgnoresInputName .standard ⟨256, "uv"⟩ := by
  obtain ⟨s, F, -, -, hs, hF, -⟩ := twoCircles_runs
  refine ⟨s, F, hs, hF, (Shape.ignoresInputName_iff s .standard ⟨256, "uv"⟩ rfl).2.2 fun _ _ i _ => ?_⟩
  exact ⟨Emission.nameOf_ne (by decide) i, Emission.nameOf_ne (by decide) i⟩

/-- A distance that reads the input after its first statement. -/
def lengthMinusX : String :=
  "\x7bdist: p -> length(p) - p.x\x7d"

/-- Whether the fragment has a value at a point where, with the input named `r0`, it has a
fault about tags. -/
def Shape.failsUnderR0 (s : Shape) (F₁ : Fragment) : Bool :=
  match s.compile ⟨256, "r0"⟩ with
  | .error _ => false
  | .ok F₂ =>
    match F₁.evaluate (.vector [3, 4]), F₂.evaluate (.vector [3, 4]) with
    | .ok _, .error (.report f) => f.kind = .wrongType
    | _, _ => false

set_option maxRecDepth 10000 in
/-- **The first statement can overwrite the input.** Under the name `r0` the fragment then
indexes a number, where it has a value under the name `P`. -/
theorem Shape.inputName_overwritten :
    ∃ s F₁ F₂ v f, Shape.ofSource? lengthMinusX .standard 0 = some s ∧
      s.compile .standard = .ok F₁ ∧ s.compile ⟨256, "r0"⟩ = .ok F₂ ∧
      F₁.evaluate (.vector [3, 4]) = .ok v ∧ F₂.evaluate (.vector [3, 4]) = .error (.report f) ∧
      f.kind = .wrongType ∧ ¬ s.IgnoresInputName .standard ⟨256, "r0"⟩ := by
  have hcheck : Shape.compilesFrom lengthMinusX .standard Shape.failsUnderR0 = true := by decide +kernel
  obtain ⟨s, F₁, hs, hF₁, hchecks⟩ := Shape.exists_of_compilesFrom hcheck
  unfold Shape.failsUnderR0 at hchecks
  split at hchecks
  · cases hchecks
  · next F₂ hF₂ =>
    split at hchecks
    · next v f hv hf =>
      refine ⟨s, F₁, F₂, v, f, hs, hF₁, hF₂, hv, hf, of_decide_eq_true hchecks, fun hignores => ?_⟩
      have hsame := hignores.evaluates F₁ F₂ hF₁ hF₂ (.vector [3, 4])
      rw [hv, hf] at hsame
      exact hsame
    · cases hchecks

end DistanceField
