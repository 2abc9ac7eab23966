import TensorKernels.Proofs.Lowering.Schedule

set_option autoImplicit false

namespace TensorKernels

namespace Handlers

/-- The handlers are the two of block rearrangements. One may be missing or serve the wrong kind. -/
def OnlyBlocks (hs : Handlers) : Prop := ∀ kind h, hs.get? kind = some h → ∃ k, h = block k

namespace OnlyBlocks

variable {hs : Handlers} (h : hs.OnlyBlocks) (op : Operator) (ctx : LoweringEnv)

include h

/-- The operator has no handler of its kind, or is treated as with the two in their places. -/
theorem dispatch_eq : (∃ e, hs.dispatch op ctx = throw e) ∨
    hs.dispatch op ctx = standard.dispatch op ctx := by
  cases hget : hs.get? op.kind with
  | none =>
    refine .inl ⟨.missingHandler op.label, ?_⟩
    unfold dispatch
    rw [hget]
  | some handler =>
    obtain ⟨k, rfl⟩ := h op.kind handler hget
    rw [dispatch_of_get? hget]
    by_cases hk : op.kind = k
    · rw [dispatch_of_get? (get?_standard op.kind), hk]
      exact .inr rfl
    · have hrefuses : block k op ctx = throw (.invalidParameter "type"
          (k.tag ++ " handler called with " ++ op.label)) := if_neg hk
      rw [hrefuses]
      exact .inl ⟨_, rfl⟩

theorem outcome_cases : (∃ e, ∀ taken, (hs.dispatch op ctx).outcome taken = (.error e, taken)) ∨
    ∃ kernel, ∀ taken, (hs.dispatch op ctx).outcome taken =
      match taken.claim op.entryName with
      | .error e => (.error (.lowering op.label e), taken)
      | .ok taken' => (.ok [kernel], taken') := by
  rcases h.dispatch_eq op ctx with ⟨e, he⟩ | hsame
  · rw [he]
    exact .inl ⟨e, fun _ => rfl⟩
  · rw [hsame]
    cases hm : op.metadata ctx.layout with
    | error e =>
      refine .inl ⟨.lowering op.label e, fun taken => ?_⟩
      have hout := outcome_standard op ctx taken
      rw [hm] at hout
      exact hout
    | ok r =>
      refine .inr ⟨op.kernelOf r ctx.launch, fun taken => ?_⟩
      have hout := outcome_standard op ctx taken
      rw [hm] at hout
      exact hout

theorem taken_of_error {taken taken' : TakenNames} {e : LoweringError}
    (ho : (hs.dispatch op ctx).outcome taken = (.error e, taken')) : taken' = taken := by
  rcases h.outcome_cases op ctx with ⟨e', hall⟩ | ⟨kernel, hall⟩
  · rw [hall] at ho
    exact (congrArg Prod.snd ho).symm
  · rw [hall] at ho
    cases hc : taken.claim op.entryName with
    | error e' =>
      rw [hc] at ho
      exact (congrArg Prod.snd ho).symm
    | ok next =>
      rw [hc] at ho
      cases ho

theorem names_of_ok {taken taken' : TakenNames} {kernels : List Kernel}
    (ho : (hs.dispatch op ctx).outcome taken = (.ok kernels, taken')) :
    op.entryName ∉ taken.names ∧ taken'.names = op.entryName :: taken.names := by
  rcases h.outcome_cases op ctx with ⟨e, hall⟩ | ⟨kernel, hall⟩
  · rw [hall] at ho
    cases ho
  · rw [hall] at ho
    by_cases hmem : op.entryName ∈ taken.names
    · rw [TakenNames.claim_taken hmem] at ho
      cases ho
    · obtain ⟨next, hc, hnames⟩ := TakenNames.claim_fresh hmem
      rw [hc] at ho
      cases ho
      exact ⟨hmem, hnames⟩

theorem result_congr {taken taken' : TakenNames}
    (hname : op.entryName ∈ taken.names ↔ op.entryName ∈ taken'.names) :
    ((hs.dispatch op ctx).outcome taken).1 = ((hs.dispatch op ctx).outcome taken').1 := by
  rcases h.outcome_cases op ctx with ⟨e, hall⟩ | ⟨kernel, hall⟩
  · rw [hall, hall]
  · rw [hall, hall]
    by_cases hmem : op.entryName ∈ taken.names
    · rw [TakenNames.claim_taken hmem, TakenNames.claim_taken (hname.1 hmem)]
    · obtain ⟨next, hc, -⟩ := TakenNames.claim_fresh hmem
      obtain ⟨next', hc', -⟩ := TakenNames.claim_fresh (mt hname.2 hmem)
      rw [hc, hc']

end OnlyBlocks

end Handlers

/-- A dispatch of a run, with its result. The layout may differ from one dispatch to the next. -/
structure Dispatched where
  op : Operator
  ctx : LoweringEnv
  result : Except LoweringError (List Kernel)

def Dispatched.Succeeds (d : Dispatched) : Prop := ∃ kernels, d.result = .ok kernels

namespace Handlers

def dispatchEach (hs : Handlers) :
    List (Operator × LoweringEnv) → TakenNames → List Dispatched × TakenNames
  | [], taken => ([], taken)
  | (op, ctx) :: rest, taken =>
    let first := (hs.dispatch op ctx).outcome taken
    let (others, last) := hs.dispatchEach rest first.2
    (⟨op, ctx, first.1⟩ :: others, last)

theorem lowerEach_eq_dispatchEach (hs : Handlers) (ctx : LoweringEnv) (ops : List Operator)
    (taken : TakenNames) : lowerEach hs ctx ops taken =
      ((hs.dispatchEach (ops.map (·, ctx)) taken).1.map Dispatched.result,
        (hs.dispatchEach (ops.map (·, ctx)) taken).2) := by
  induction ops generalizing taken with
  | nil => rfl
  | cons op ops ih =>
    rw [lowerEach_cons rfl, ih]
    rfl

theorem OnlyBlocks.mem_dispatchEach {hs : Handlers} (h : hs.OnlyBlocks)
    (requests : List (Operator × LoweringEnv)) (taken : TakenNames) (name : String) :
    name ∈ (hs.dispatchEach requests taken).2.names ↔ name ∈ taken.names ∨
      ∃ d ∈ (hs.dispatchEach requests taken).1, d.Succeeds ∧ name = d.op.entryName := by
  -- each dispatch adds its name if it succeeds, and nothing otherwise
  induction requests generalizing taken with
  | nil => simp [dispatchEach]
  | cons request rest ih =>
    obtain ⟨op, ctx⟩ := request
    rw [dispatchEach]
    cases ho : (hs.dispatch op ctx).outcome taken with
    | mk result next =>
      simp only [ih next]
      rw [List.exists_mem_cons_iff, ← or_assoc]
      apply or_congr_left
      cases result with
      | error e =>
        rw [h.taken_of_error op ctx ho]
        simp [Dispatched.Succeeds]
      | ok kernels =>
        rw [(h.names_of_ok op ctx ho).2, List.mem_cons, or_comm]
        simp [Dispatched.Succeeds]

/-- A dispatch takes the name of its operator if it succeeds, and no name otherwise. So the names
taken in a run are those of the operators it has lowered, and an operator that it has not lowered
fares as it would have fared before the run. -/
theorem OnlyBlocks.names_taken {hs : Handlers} (h : hs.OnlyBlocks) :
    (∀ op ctx taken e taken',
      (hs.dispatch op ctx).outcome taken = (.error e, taken') → taken' = taken) ∧
    (∀ op ctx taken kernels taken', (hs.dispatch op ctx).outcome taken = (.ok kernels, taken') →
      op.entryName ∉ taken.names ∧ taken'.names = op.entryName :: taken.names) ∧
    (∀ requests taken name, name ∈ (hs.dispatchEach requests taken).2.names ↔ name ∈ taken.names ∨
      ∃ d ∈ (hs.dispatchEach requests taken).1, d.Succeeds ∧ name = d.op.entryName) ∧
    ∀ requests taken op ctx,
      (∀ d ∈ (hs.dispatchEach requests taken).1, d.Succeeds → d.op.kind = op.kind →
        d.op.id ≠ op.id) →
      ((hs.dispatch op ctx).outcome (hs.dispatchEach requests taken).2).1 =
        ((hs.dispatch op ctx).outcome taken).1 := by
  refine ⟨fun op ctx _ _ _ => h.taken_of_error op ctx, fun op ctx _ _ _ => h.names_of_ok op ctx,
    h.mem_dispatchEach, fun requests taken op ctx hfailed => ?_⟩
  apply h.result_congr
  rw [h.mem_dispatchEach, or_iff_left]
  rintro ⟨d, hd, hsucceeds, hname⟩
  obtain ⟨hkind, hid⟩ := Operator.entryName_injective hname
  exact hfailed d hd hsucceeds hkind.symm hid.symm

/-- One handler serves both kinds. An operator without a layout and one of the other kind fail, and
the first is lowered when its layout is there. -/
theorem OnlyBlocks.names_taken_on_retry : ∃ (hs : Handlers) (op other : Operator)
    (missing present : LoweringEnv) (kernel : Kernel), hs.OnlyBlocks ∧
      op.metadata missing.layout = .error (.missingLayout "x") ∧ op.kind ≠ other.kind ∧
      (∀ d ∈ (hs.dispatchEach [(op, missing), (other, present)] .empty).1, ¬ d.Succeeds) ∧
      ((hs.dispatch op present).outcome
        (hs.dispatchEach [(op, missing), (other, present)] .empty).2).1 = .ok [kernel] := by
  let hs : Handlers :=
    (empty.register .depth2space (block .depth2space)).register .space2depth (block .depth2space)
  let x : Tensor := ⟨"x", .nhwc, [1, 1, 1, 4], rfl, by simp⟩
  let y : Tensor := ⟨"y", .nhwc, [1, 2, 2, 1], rfl, by simp⟩
  let op : Operator := ⟨.depth2space, 0, x, y, 2, by decide⟩
  let other : Operator := ⟨.space2depth, 1, y, x, 2, by decide⟩
  let layout : MemoryLayout :=
    ⟨[("x", ⟨.static, .fixed 0, 4⟩), ("y", ⟨.static, .fixed 4, 4⟩)], by decide⟩
  let missing : LoweringEnv := ⟨∅, .standard⟩
  let present : LoweringEnv := ⟨layout, .standard⟩
  have h : hs.OnlyBlocks := by
    rintro (_ | _) _ ⟨⟩ <;> exact ⟨.depth2space, rfl⟩
  have hmissing : op.metadata missing.layout = .error (.missingLayout "x") := by decide +kernel
  have hsame (ctx : LoweringEnv) : hs.dispatch op ctx = standard.dispatch op ctx := rfl
  have hfirst : (hs.dispatch op missing).outcome .empty =
      (.error (.lowering op.label (.missingLayout "x")), .empty) := by
    rw [hsame, outcome_standard, hmissing]
  have hsecond : (hs.dispatch other present).outcome .empty =
      (.error (.lowering other.label (.invalidParameter "type"
        ("depth2space handler called with " ++ other.label))), .empty) := rfl
  have hfailed : ∀ d ∈ (hs.dispatchEach [(op, missing), (other, present)] .empty).1,
      ¬ d.Succeeds := by
    simp only [dispatchEach, hfirst, hsecond, List.forall_mem_cons]
    exact ⟨nofun, nofun, List.forall_mem_nil _⟩
  obtain ⟨-, -, -, hretry⟩ := OnlyBlocks.names_taken h
  obtain ⟨kernel, taken, hok⟩ := exists_standard_ok op present (by decide +kernel)
  rw [← hsame] at hok
  refine ⟨hs, op, other, missing, present, kernel, h, hmissing, by decide, hfailed, ?_⟩
  rw [hretry _ _ _ _ fun d hd hsucceeds => absurd hsucceeds (hfailed d hd)]
  exact congrArg Prod.fst hok

end Handlers

end TensorKernels
