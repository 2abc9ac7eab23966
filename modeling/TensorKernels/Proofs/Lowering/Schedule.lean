import TensorKernels.Lowering
import TensorKernels.Proofs.Lowering.Dispatch
import TensorKernels.Proofs.Lowering.Outcome

/-! The dispatches of a graph share the names that are taken. Since different operators take
different names, every order of the dispatches gives each operator the outcome that it has alone. -/

set_option autoImplicit false

namespace TensorKernels

namespace Operator

/-- The outcome of a dispatch when no name is taken. -/
def alone (ctx : LoweringEnv) (op : Operator) : Except LoweringError (List Kernel) :=
  ((Handlers.standard.dispatch op ctx).outcome .empty).1

def takes (ctx : LoweringEnv) (op : Operator) : List String :=
  if (op.alone ctx).isOk then [op.entryName] else []

theorem alone_eq (ctx : LoweringEnv) (op : Operator) : op.alone ctx =
    match op.metadata ctx.layout with
    | .error e => .error (.lowering op.label e)
    | .ok r => .ok [op.kernelOf r ctx.launch] := by
  rw [alone, Handlers.outcome_standard]
  cases op.metadata ctx.layout <;> rfl

theorem outcome_of_fresh {ctx : LoweringEnv} {op : Operator} {taken : TakenNames}
    (h : op.entryName ∉ taken.names) :
    ∃ taken', (Handlers.standard.dispatch op ctx).outcome taken = (op.alone ctx, taken') ∧
      taken'.names = op.takes ctx ++ taken.names := by
  rw [Handlers.outcome_standard, takes, alone_eq]
  cases op.metadata ctx.layout with
  | error e => exact ⟨taken, rfl, rfl⟩
  | ok r =>
    obtain ⟨taken', hc, hnames⟩ := TakenNames.claim_fresh h
    exact ⟨taken', by simp only [hc], hnames⟩

end Operator

/-- The names taken are those of the operators that have been lowered, the latest first. -/
def TakenNames.Records (taken : TakenNames) (ctx : LoweringEnv) (done : List Operator) : Prop :=
  taken.names = done.flatMap (Operator.takes ctx)

namespace TakenNames

theorem records_empty (ctx : LoweringEnv) : empty.Records ctx [] := rfl

variable {taken : TakenNames} {ctx : LoweringEnv} {done : List Operator} {op : Operator}

theorem Records.fresh (h : taken.Records ctx done)
    (hn : op.entryName ∉ done.map Operator.entryName) : op.entryName ∉ taken.names := by
  intro hmem
  rw [h, List.mem_flatMap] at hmem
  obtain ⟨o, ho, hname⟩ := hmem
  unfold Operator.takes at hname
  split at hname
  · exact hn (List.mem_map.2 ⟨o, ho, (List.mem_singleton.1 hname).symm⟩)
  · cases hname

theorem Records.step (h : taken.Records ctx done)
    (hn : op.entryName ∉ done.map Operator.entryName) :
    ∃ taken', (Handlers.standard.dispatch op ctx).outcome taken = (op.alone ctx, taken') ∧
      taken'.Records ctx (op :: done) := by
  obtain ⟨taken', hout, hnames⟩ := Operator.outcome_of_fresh (h.fresh hn)
  refine ⟨taken', hout, ?_⟩
  rw [Records, hnames, h, List.flatMap_cons]

end TakenNames

theorem lowerEach_cons {hs : Handlers} {ctx : LoweringEnv} {op : Operator} {ops : List Operator}
    {taken taken' : TakenNames} {o : Except LoweringError (List Kernel)}
    (h : (hs.dispatch op ctx).outcome taken = (o, taken')) :
    lowerEach hs ctx (op :: ops) taken =
      (o :: (lowerEach hs ctx ops taken').1, (lowerEach hs ctx ops taken').2) := by
  have hstep : lowerEach hs ctx (op :: ops) taken =
      (((hs.dispatch op ctx).outcome taken).1 ::
        (lowerEach hs ctx ops ((hs.dispatch op ctx).outcome taken).2).1,
        (lowerEach hs ctx ops ((hs.dispatch op ctx).outcome taken).2).2) := rfl
  rw [hstep, h]

theorem fresh_of_nodup {op : Operator} {order done : List Operator}
    (hn : ((op :: order ++ done).map Operator.entryName).Nodup) :
    op.entryName ∉ done.map Operator.entryName ∧
      ((order ++ op :: done).map Operator.entryName).Nodup := by
  refine ⟨fun hmem => ?_, (List.perm_middle.map Operator.entryName).nodup_iff.2 hn⟩
  rw [List.cons_append, List.map_cons, List.nodup_cons, List.map_append] at hn
  exact hn.1 (List.mem_append_right _ hmem)

theorem lowerEach_alone {ctx : LoweringEnv} {done order : List Operator} {taken : TakenNames}
    (h : taken.Records ctx done) (hn : ((order ++ done).map Operator.entryName).Nodup) :
    (lowerEach .standard ctx order taken).1 = order.map (Operator.alone ctx) ∧
      (lowerEach .standard ctx order taken).2.Records ctx (order.reverse ++ done) := by
  -- each operator goes from `order` to `done`, and `Records` is kept
  induction order generalizing done taken with
  | nil => exact ⟨rfl, h⟩
  | cons op order ih =>
    obtain ⟨hfresh, hperm⟩ := fresh_of_nodup hn
    obtain ⟨taken', hout, hrec⟩ := h.step hfresh
    obtain ⟨hrest, hlast⟩ := ih hrec hperm
    rw [lowerEach_cons hout, hrest, List.reverse_cons, List.append_assoc]
    exact ⟨rfl, hlast⟩

theorem lowerInOrder_alone {ctx : LoweringEnv} {done ops : List Operator} {taken : TakenNames}
    (h : taken.Records ctx done) (hn : ((ops ++ done).map Operator.entryName).Nodup) :
    ((lowerInOrder .standard ctx ops).outcome taken).1 = collect (ops.map (Operator.alone ctx)) := by
  induction ops generalizing done taken with
  | nil => rfl
  | cons op ops ih =>
    obtain ⟨hfresh, hperm⟩ := fresh_of_nodup hn
    obtain ⟨taken', hout, hrec⟩ := h.step hfresh
    have hrest := ih hrec hperm
    rw [lowerInOrder, List.map_cons, collect]
    cases ha : op.alone ctx with
    | error e =>
      rw [ha] at hout
      rw [Lowering.outcome_bind_error hout]
      rfl
    | ok first =>
      rw [ha] at hout
      rw [Lowering.outcome_bind_ok hout]
      cases ho : (lowerInOrder .standard ctx ops).outcome taken' with
      | mk o taken'' =>
        rw [ho] at hrest
        cases o with
        | error e =>
          rw [Lowering.outcome_bind_error ho, ← hrest]
          rfl
        | ok rest =>
          rw [Lowering.outcome_bind_ok ho, ← hrest]
          rfl

theorem lookup_zip_map {α β : Type} [BEq α] [LawfulBEq α] (f : α → β) {a : α} {as : List α}
    (h : a ∈ as) : (as.zip (as.map f)).lookup a = some (f a) := by
  induction as with
  | nil => cases h
  | cons b as ih =>
    rw [List.map_cons, List.zip_cons_cons, List.lookup_cons]
    cases hab : a == b with
    | true => simp [eq_of_beq hab]
    | false =>
      have hne : a ≠ b := fun e => by simp [e] at hab
      exact ih ((List.mem_cons.1 h).resolve_left hne)

section

variable {os ps : List (Except LoweringError (List Kernel))} {kernels : List Kernel}

theorem collect_cons_ok (first : List Kernel) :
    collect (.ok first :: os) = (collect os).map (first ++ ·) := by
  rw [collect]
  cases collect os <;> rfl

theorem collect_eq_ok : collect os = .ok kernels ↔
    ∃ singles : List (List Kernel), os = singles.map .ok ∧ kernels = singles.flatten := by
  induction os generalizing kernels with
  | nil =>
    constructor
    · intro h
      cases h
      exact ⟨[], rfl, rfl⟩
    · rintro ⟨singles, hs, rfl⟩
      rw [List.map_eq_nil_iff.1 hs.symm]
      rfl
  | cons o os ih =>
    constructor
    · intro h
      rw [collect] at h
      obtain ⟨first, ho, h⟩ := bind_eq_ok h
      obtain ⟨rest, hrest, h⟩ := bind_eq_ok h
      obtain ⟨singles, hs, rfl⟩ := ih.1 hrest
      cases h
      exact ⟨first :: singles, by rw [ho, hs]; rfl, rfl⟩
    · rintro ⟨singles, hs, rfl⟩
      obtain ⟨first, singles, rfl, rfl, hos⟩ := List.map_eq_cons_iff.1 hs.symm
      rw [collect_cons_ok, ih.2 ⟨singles, hos.symm, rfl⟩]
      rfl

theorem collect_eq_error {e : LoweringError} : collect os = .error e ↔
    ∃ (firsts : List (List Kernel)) (rest : List (Except LoweringError (List Kernel))),
      os = firsts.map .ok ++ .error e :: rest := by
  induction os with
  | nil =>
    constructor
    · intro h
      cases h
    · rintro ⟨firsts, rest, h⟩
      cases firsts <;> cases h
  | cons o os ih =>
    constructor
    · intro h
      cases o with
      | error e' =>
        cases h
        exact ⟨[], os, rfl⟩
      | ok first =>
        rw [collect_cons_ok] at h
        cases hos : collect os with
        | ok rest =>
          rw [hos] at h
          cases h
        | error e' =>
          rw [hos] at h
          cases h
          obtain ⟨firsts, rest, rfl⟩ := ih.1 hos
          exact ⟨first :: firsts, rest, rfl⟩
    · rintro ⟨firsts, rest, h⟩
      cases firsts with
      | nil =>
        cases h
        rfl
      | cons first firsts =>
        rw [List.map_cons, List.cons_append, List.cons.injEq] at h
        obtain ⟨rfl, hos⟩ := h
        rw [collect_cons_ok, ih.2 ⟨firsts, rest, hos⟩]
        rfl

theorem forall_ok_iff : (∀ o ∈ os, ∃ kernels, o = .ok kernels) ↔
    ∃ singles : List (List Kernel), os = singles.map .ok := by
  induction os with
  | nil => simp
  | cons o os ih =>
    rw [List.forall_mem_cons, ih]
    constructor
    · rintro ⟨⟨first, rfl⟩, singles, rfl⟩
      exact ⟨first :: singles, rfl⟩
    · rintro ⟨singles, hs⟩
      obtain ⟨first, singles, rfl, ho, hos⟩ := List.map_eq_cons_iff.1 hs.symm
      exact ⟨⟨first, ho.symm⟩, singles, hos.symm⟩

theorem collect_append_ok : collect (os ++ ps) = .ok kernels ↔
    ∃ k₁ k₂, collect os = .ok k₁ ∧ collect ps = .ok k₂ ∧ kernels = k₁ ++ k₂ := by
  constructor
  · intro h
    obtain ⟨singles, hs, rfl⟩ := collect_eq_ok.1 h
    obtain ⟨s₁, s₂, rfl, rfl, rfl⟩ := List.append_eq_map_iff.1 hs
    exact ⟨s₁.flatten, s₂.flatten, collect_eq_ok.2 ⟨s₁, rfl, rfl⟩, collect_eq_ok.2 ⟨s₂, rfl, rfl⟩,
      List.flatten_append⟩
  · rintro ⟨k₁, k₂, h₁, h₂, rfl⟩
    obtain ⟨s₁, rfl, rfl⟩ := collect_eq_ok.1 h₁
    obtain ⟨s₂, rfl, rfl⟩ := collect_eq_ok.1 h₂
    exact collect_eq_ok.2 ⟨s₁ ++ s₂, List.map_append.symm, List.flatten_append.symm⟩

end

namespace Graph

theorem nodup_of_subperm {g : Graph} {order : List Operator} (h : order.Subperm g.operators) :
    ((order ++ []).map Operator.entryName).Nodup := by
  obtain ⟨ops, hperm, hsub⟩ := h
  have hn := Operator.nodup_entryName g.nodup_ids
  rw [List.append_nil, ← (hperm.map Operator.entryName).nodup_iff]
  exact hn.sublist (hsub.map Operator.entryName)

theorem lower_eq_collect (g : Graph) (layout : MemoryLayout) (c : Configuration) :
    g.lower layout .standard c = collect (g.operators.map (Operator.alone ⟨layout, c.launch⟩)) := by
  have hn := nodup_of_subperm (List.Subperm.refl g.operators)
  have hrec := TakenNames.records_empty ⟨layout, c.launch⟩
  unfold lower
  split
  · exact congrArg collect (lowerEach_alone hrec hn).1
  · exact lowerInOrder_alone hrec hn

/-- The outcomes of a schedule, put into execution order. -/
def arrange (g : Graph) (order : List Operator)
    (outcomes : List (Except LoweringError (List Kernel))) :
    List (Except LoweringError (List Kernel)) :=
  g.operators.filterMap fun op => (order.zip outcomes).lookup op

/-- What a run on several workers may return: the kernels of all dispatches, done in any order, or
the error of one of the dispatches that have been done. -/
inductive MayReturn (g : Graph) (hs : Handlers) (ctx : LoweringEnv) :
    Except LoweringError (List Kernel) → Prop
  | kernels {order : List Operator} {ks : List Kernel} (complete : order.Perm g.operators)
      (done : collect (g.arrange order (lowerEach hs ctx order .empty).1) = .ok ks) :
      MayReturn g hs ctx (.ok ks)
  | error {order : List Operator} {e : LoweringError} (begun : order.Subperm g.operators)
      (failed : .error e ∈ (lowerEach hs ctx order .empty).1) : MayReturn g hs ctx (.error e)

/-- The kernels are those that the operators give alone, in execution order. -/
def Concatenates (g : Graph) (ctx : LoweringEnv) (kernels : List Kernel) : Prop :=
  ∃ singles : List (List Kernel),
    g.operators.map (Operator.alone ctx) = singles.map .ok ∧ kernels = singles.flatten

theorem arrange_alone {g : Graph} {ctx : LoweringEnv} {order : List Operator}
    (h : order.Perm g.operators) :
    g.arrange order (order.map (Operator.alone ctx)) = g.operators.map (Operator.alone ctx) := by
  have hlookup : ∀ op ∈ g.operators,
      (order.zip (order.map (Operator.alone ctx))).lookup op = some (op.alone ctx) :=
    fun op hop => lookup_zip_map (Operator.alone ctx) (h.mem_iff.2 hop)
  calc g.arrange order (order.map (Operator.alone ctx))
    _ = g.operators.filterMap (some ∘ Operator.alone ctx) := List.filterMap_congr hlookup
    _ = g.operators.map (Operator.alone ctx) := congrFun List.filterMap_eq_map g.operators

theorem lowerEach_schedule {g : Graph} {ctx : LoweringEnv} {order : List Operator}
    (h : order.Subperm g.operators) :
    (lowerEach .standard ctx order .empty).1 = order.map (Operator.alone ctx) :=
  (lowerEach_alone (TakenNames.records_empty ctx) (nodup_of_subperm h)).1

theorem MayReturn.eq_ok_iff {g : Graph} {ctx : LoweringEnv}
    {result : Except LoweringError (List Kernel)} (h : g.MayReturn .standard ctx result)
    (kernels : List Kernel) : result = .ok kernels ↔ g.Concatenates ctx kernels := by
  cases h with
  | kernels hall hdone =>
    rw [lowerEach_schedule hall.subperm, arrange_alone hall] at hdone
    rw [← hdone]
    exact collect_eq_ok
  | error hsome hfailed =>
    rw [lowerEach_schedule hsome] at hfailed
    obtain ⟨op, hop, he⟩ := List.mem_map.1 hfailed
    constructor
    · intro h
      cases h
    · rintro ⟨singles, hs, -⟩
      have hmem : op.alone ctx ∈ singles.map .ok :=
        hs ▸ List.mem_map_of_mem (hsome.subset hop)
      rw [he] at hmem
      obtain ⟨single, -, h⟩ := List.mem_map.1 hmem
      cases h

theorem MayReturn.exists_cause {g : Graph} {ctx : LoweringEnv} {e : LoweringError}
    (h : g.MayReturn .standard ctx (.error e)) :
    ∃ op cause, Operator.metadata op ctx.layout = .error cause ∧ e = .lowering op.label cause := by
  cases h with
  | error hsome hfailed =>
    rw [lowerEach_schedule hsome] at hfailed
    obtain ⟨op, -, hop⟩ := List.mem_map.1 hfailed
    rw [Operator.alone_eq] at hop
    cases hm : op.metadata ctx.layout with
    | error cause =>
      rw [hm] at hop
      cases hop
      exact ⟨op, cause, hm, rfl⟩
    | ok r =>
      rw [hm] at hop
      cases hop

theorem mayReturn_lower {g : Graph} {layout : MemoryLayout} {c : Configuration} :
    g.MayReturn .standard ⟨layout, c.launch⟩ (g.lower layout .standard c) := by
  have hperm := List.Perm.refl g.operators
  have hlower := g.lower_eq_collect layout c
  cases h : g.lower layout .standard c with
  | ok kernels =>
    refine .kernels hperm ?_
    rw [lowerEach_schedule hperm.subperm, arrange_alone hperm, ← hlower, h]
  | error e =>
    refine .error hperm.subperm ?_
    rw [h] at hlower
    obtain ⟨firsts, rest, hos⟩ := collect_eq_error.1 hlower.symm
    rw [lowerEach_schedule hperm.subperm, hos]
    exact List.mem_append_right _ List.mem_cons_self

theorem exists_concatenates {g : Graph} {ctx : LoweringEnv} :
    (∃ kernels, g.Concatenates ctx kernels) ↔
      ∀ op ∈ g.operators, ∃ kernels, op.alone ctx = .ok kernels := by
  have hall : (∀ o ∈ g.operators.map (Operator.alone ctx), ∃ kernels, o = .ok kernels) ↔
      ∀ op ∈ g.operators, ∃ kernels, op.alone ctx = .ok kernels := by
    rw [List.forall_mem_map]
  rw [← hall, forall_ok_iff]
  constructor
  · rintro ⟨-, singles, hs, rfl⟩
    exact ⟨singles, hs⟩
  · rintro ⟨singles, hs⟩
    exact ⟨singles.flatten, singles, hs, rfl⟩

theorem exists_lower_ok {g : Graph} {layout : MemoryLayout}
    (h : ∀ op ∈ g.operators, (Operator.metadata op layout).isOk = true) (c : Configuration) :
    ∃ kernels, g.lower layout .standard c = .ok kernels := by
  have halone : ∀ op ∈ g.operators, ∃ kernels, op.alone ⟨layout, c.launch⟩ = .ok kernels := by
    intro op hop
    obtain ⟨r, hm⟩ := exists_ok_of_isOk (h op hop)
    exact ⟨[op.kernelOf r c.launch], by rw [Operator.alone_eq, hm]⟩
  obtain ⟨kernels, hk⟩ := exists_concatenates.2 halone
  exact ⟨kernels, (mayReturn_lower.eq_ok_iff kernels).2 hk⟩

theorem Concatenates.eq_kernelOf {g : Graph} {ctx : LoweringEnv} {kernels : List Kernel}
    (h : g.Concatenates ctx kernels) : List.Forall₂ (fun op k => ∃ r,
      op.metadata ctx.layout = .ok r ∧ k = op.kernelOf r ctx.launch) g.operators kernels := by
  obtain ⟨singles, hs, rfl⟩ := h
  generalize g.operators = ops at hs ⊢
  induction ops generalizing singles with
  | nil =>
    rw [List.map_eq_nil_iff.1 hs.symm]
    exact .nil
  | cons op ops ih =>
    obtain ⟨single, singles, rfl, hop, hops⟩ := List.map_eq_cons_iff.1 hs.symm
    rw [Operator.alone_eq] at hop
    cases hm : op.metadata ctx.layout with
    | error e =>
      rw [hm] at hop
      cases hop
    | ok r =>
      rw [hm] at hop
      cases hop
      exact .cons ⟨r, hm, rfl⟩ (ih singles hops.symm)

theorem exists_kernelOf_of_mem {g : Graph} {layout : MemoryLayout} {c : Configuration}
    {kernels : List Kernel} (h : g.lower layout .standard c = .ok kernels) {k : Kernel}
    (hk : k ∈ kernels) : ∃ op r, Operator.metadata op layout = .ok r ∧
      k = op.kernelOf r c.launch := by
  have hall := ((mayReturn_lower.eq_ok_iff kernels).1 h).eq_kernelOf
  obtain ⟨op, -, r, hm, he⟩ := exists_of_mem_right hall hk
  exact ⟨op, r, hm, he⟩

theorem lower_eq_error {g : Graph} {layout : MemoryLayout} {c : Configuration} {e : LoweringError} :
    g.lower layout .standard c = .error e ↔ ∃ before op after,
      g.operators = before ++ op :: after ∧
        (∀ o ∈ before, ∃ kernels, o.alone ⟨layout, c.launch⟩ = .ok kernels) ∧
          op.alone ⟨layout, c.launch⟩ = .error e := by
  rw [lower_eq_collect, collect_eq_error]
  constructor
  · rintro ⟨firsts, rest, hs⟩
    obtain ⟨before, tail, hops, hbefore, htail⟩ := List.map_eq_append_iff.1 hs
    obtain ⟨op, after, rfl, hop, -⟩ := List.map_eq_cons_iff.1 htail
    have hall := forall_ok_iff.2 ⟨firsts, hbefore⟩
    rw [List.forall_mem_map] at hall
    exact ⟨before, op, after, hops, hall, hop⟩
  · rintro ⟨before, op, after, hops, hbefore, hop⟩
    have hall : ∀ o ∈ before.map (Operator.alone ⟨layout, c.launch⟩),
        ∃ kernels, o = .ok kernels := by
      rw [List.forall_mem_map]
      exact hbefore
    obtain ⟨firsts, hfirsts⟩ := forall_ok_iff.1 hall
    refine ⟨firsts, after.map (Operator.alone ⟨layout, c.launch⟩), ?_⟩
    rw [hops, List.map_append, List.map_cons, hfirsts, hop]

theorem lower_append {g g₁ g₂ : Graph} {layout : MemoryLayout} {c : Configuration}
    (h : g.operators = g₁.operators ++ g₂.operators) (kernels : List Kernel) :
    g.lower layout .standard c = .ok kernels ↔ ∃ k₁ k₂, g₁.lower layout .standard c = .ok k₁ ∧
      g₂.lower layout .standard c = .ok k₂ ∧ kernels = k₁ ++ k₂ := by
  rw [lower_eq_collect, lower_eq_collect, lower_eq_collect, h, List.map_append]
  exact collect_append_ok

/-- Each dispatch gives what it gives alone, in every order of the dispatches, and the kernels of a
graph are those of its operators in execution order, however it is lowered and wherever it is cut. -/
theorem lower_alone (g : Graph) (layout : MemoryLayout) (c : Configuration) :
    (∀ order : List Operator, order.Subperm g.operators →
      (lowerEach .standard ⟨layout, c.launch⟩ order .empty).1 =
        order.map (Operator.alone ⟨layout, c.launch⟩)) ∧
    ((∃ kernels, g.lower layout .standard c = .ok kernels) ↔
      ∀ op ∈ g.operators, ∃ kernels, op.alone ⟨layout, c.launch⟩ = .ok kernels) ∧
    (∀ kernels, g.lower layout .standard c = .ok kernels ↔
      g.Concatenates ⟨layout, c.launch⟩ kernels) ∧
    (∀ result, g.MayReturn .standard ⟨layout, c.launch⟩ result →
      ∀ kernels, result = .ok kernels ↔ g.Concatenates ⟨layout, c.launch⟩ kernels) ∧
    (c.parallel = true → g.MayReturn .standard ⟨layout, c.launch⟩ (g.lower layout .standard c)) ∧
    (c.parallel = false → ∀ e, g.lower layout .standard c = .error e ↔ ∃ before op after,
      g.operators = before ++ op :: after ∧
        (∀ o ∈ before, ∃ kernels, o.alone ⟨layout, c.launch⟩ = .ok kernels) ∧
          op.alone ⟨layout, c.launch⟩ = .error e) ∧
    ∀ g₁ g₂ : Graph, g.operators = g₁.operators ++ g₂.operators → ∀ kernels,
      g.lower layout .standard c = .ok kernels ↔ ∃ k₁ k₂, g₁.lower layout .standard c = .ok k₁ ∧
        g₂.lower layout .standard c = .ok k₂ ∧ kernels = k₁ ++ k₂ := by
  have hok (kernels : List Kernel) :
      g.lower layout .standard c = .ok kernels ↔ g.Concatenates ⟨layout, c.launch⟩ kernels :=
    mayReturn_lower.eq_ok_iff kernels
  refine ⟨fun order h => lowerEach_schedule h, ?_, hok, fun result h => h.eq_ok_iff,
    fun _ => mayReturn_lower, fun _ e => lower_eq_error, fun g₁ g₂ h => lower_append h⟩
  rw [← exists_concatenates]
  exact exists_congr hok

/-- The second of two operators has no place for its input, and a schedule may begin with it. -/
theorem lower_alone_missing_input : ∃ (first second : Operator) (g : Graph) (layout : MemoryLayout)
    (c : Configuration), g.operators = [first, second] ∧
      g.lower layout .standard c = .error (.lowering second.label (.missingLayout "z")) ∧
      (lowerEach .standard ⟨layout, c.launch⟩ [second, first] .empty).1 =
        [second.alone ⟨layout, c.launch⟩, first.alone ⟨layout, c.launch⟩] := by
  let first : Operator := ⟨.space2depth, 1, ⟨"x", .nhwc, [1, 2, 2, 2], rfl, by simp⟩,
    ⟨"y", .nhwc, [1, 1, 1, 8], rfl, by simp⟩, 2, by decide⟩
  let second : Operator := ⟨.depth2space, 11, ⟨"z", .nhwc, [1, 1, 1, 8], rfl, by simp⟩,
    ⟨"x", .nhwc, [1, 2, 2, 2], rfl, by simp⟩, 2, by decide⟩
  let g : Graph := ⟨[first, second], by decide⟩
  let layout : MemoryLayout :=
    ⟨[("x", ⟨.static, .fixed 0, 8⟩), ("y", ⟨.static, .fixed 8, 8⟩)], by decide⟩
  let c : Configuration := .standard
  obtain ⟨hschedule, -, -, -, -, herror, -⟩ := lower_alone g layout c
  have hfirst : ∃ kernels, first.alone ⟨layout, c.launch⟩ = .ok kernels := by
    have hok : (first.metadata layout).isOk = true := by decide +kernel
    rw [Operator.alone_eq]
    cases hm : first.metadata layout with
    | error e => simp [hm, Except.isOk, Except.toBool] at hok
    | ok r => exact ⟨_, rfl⟩
  have hsecond : second.alone ⟨layout, c.launch⟩ =
      .error (.lowering second.label (.missingLayout "z")) := by
    rw [Operator.alone_eq]
    rfl
  refine ⟨first, second, g, layout, c, rfl, ?_, hschedule _ (List.Perm.swap first second []).subperm⟩
  exact (herror rfl _).2 ⟨[first], second, [], rfl, by simpa using hfirst, hsecond⟩

end Graph

end TensorKernels
