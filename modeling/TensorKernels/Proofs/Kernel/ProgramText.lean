import Mathlib.Data.List.Basic
import TensorKernels.Program
import TensorKernels.Proofs.Json.WrittenText

set_option autoImplicit false

namespace TensorKernels

theorem Json.nat_injective : Function.Injective Json.nat := by
  intro m n h
  exact Int.ofNat.inj (Json.int.inj h)

theorem Dim.toJson_injective : Function.Injective Dim.toJson := by
  intro d e h
  cases d with
  | fixed m =>
    cases e with
    | fixed n => rw [UInt32.toNat_inj.1 (Json.nat_injective h)]
    | preset label => cases h
  | preset label =>
    cases e with
    | fixed n => cases h
    | preset label' => rw [Json.str.inj h]

theorem LaunchSize.toJson_injective : Function.Injective LaunchSize.toJson := by
  rintro ⟨x, y, z⟩ ⟨x', y', z'⟩ h
  simp only [toJson, Json.obj.injEq, List.cons.injEq, Prod.mk.injEq, true_and, and_true] at h
  obtain ⟨hx, hy, hz⟩ := h
  rw [Dim.toJson_injective hx, Dim.toJson_injective hy, Dim.toJson_injective hz]

theorem Cell.toInt_injective : Function.Injective Cell.toInt := by
  intro c d h
  exact congrArg Int32.toUInt32 (Int32.toInt_inj.1 h)

theorem Cells.toJson_injective : Function.Injective Cells.toJson := by
  intro cs ds h
  refine List.map_injective_iff.2 ?_ (Json.arr.inj h)
  intro c d hcell
  exact Cell.toInt_injective (Json.int.inj hcell)

theorem Slot.name_injective : Function.Injective Slot.name := by
  intro s t h
  cases s <;> cases t <;> first | rfl | exact absurd h (by decide)

/-- The slot is the tag: only the metadata buffer has cells. -/
theorem Buffer.toJson_injective : Function.Injective Buffer.toJson := by
  intro b b' h
  obtain ⟨hname, hcells⟩ := List.cons.inj (Json.obj.inj h)
  have hslot : b.slot = b'.slot := Slot.name_injective (Json.str.inj (Prod.mk.inj hname).2)
  cases b with
  | static =>
    cases b' with
    | static => rfl
    | dynamic | metadata => cases hslot
  | dynamic =>
    cases b' with
    | dynamic => rfl
    | static | metadata => cases hslot
  | metadata cs =>
    cases b' with
    | static | dynamic => cases hslot
    | metadata ds => rw [Cells.toJson_injective (Prod.mk.inj (List.cons.inj hcells).1).2]

theorem Unresolved.toJson_injective : Function.Injective Unresolved.toJson := by
  rintro ⟨cell, byteOffset, key, label⟩ ⟨cell', byteOffset', key', label'⟩ h
  simp only [toJson, labelJson, Json.obj.injEq, List.cons.injEq, Prod.mk.injEq, Json.str.injEq,
    true_and, and_true] at h
  obtain ⟨hcell, hoffset, rfl, rfl⟩ := h
  rw [Json.nat_injective hcell, Json.nat_injective hoffset]

theorem Kernel.toJson_injective : Function.Injective Kernel.toJson := by
  rintro ⟨name, source, ⟨grid, threadgroup⟩, buffers, unresolved⟩
    ⟨name', source', ⟨grid', threadgroup'⟩, buffers', unresolved'⟩ h
  simp only [toJson, sources, entryPoint, List.map_cons, List.map_nil, Json.obj.injEq,
    List.cons.injEq, Prod.mk.injEq, Json.str.injEq, Json.arr.injEq, true_and, and_true] at h
  obtain ⟨rfl, ⟨-, rfl⟩, -, hgrid, hthreadgroup, hbuffers, hunresolved, -⟩ := h
  rw [LaunchSize.toJson_injective hgrid, LaunchSize.toJson_injective hthreadgroup,
    List.map_injective_iff.2 Buffer.toJson_injective hbuffers,
    List.map_injective_iff.2 Unresolved.toJson_injective hunresolved]

theorem Program.toJson_injective : Function.Injective Program.toJson := by
  rintro ⟨kernels⟩ ⟨kernels'⟩ h
  simp only [toJson, Json.obj.injEq, List.cons.injEq, Prod.mk.injEq, Json.arr.injEq, true_and,
    and_true] at h
  rw [List.map_injective_iff.2 Kernel.toJson_injective h.1]

theorem LaunchSize.plain_toJson (s : LaunchSize) : s.toJson.Plain fun _ => True := by
  have hdim (d : Dim) : d.toJson.Plain fun _ => True := by
    cases d with
    | fixed n => exact .int trivial
    | preset label => exact .str label
  refine .obj ?_
  simp only [List.forall_mem_cons]
  exact ⟨hdim _, hdim _, hdim _, nofun⟩

theorem Buffer.plain_toJson (b : Buffer) : b.toJson.Plain fun _ => True := by
  refine .obj (List.forall_mem_cons.2 ⟨.str _, ?_⟩)
  cases b with
  | static => nofun
  | dynamic => nofun
  | metadata cells =>
    exact List.forall_mem_singleton.2 (.arr (List.forall_mem_map.2 fun c _ => .int trivial))

theorem Unresolved.plain_toJson (u : Unresolved) : u.toJson.Plain fun _ => True := by
  refine .obj ?_
  simp only [List.forall_mem_cons]
  exact ⟨.int trivial, .int trivial, .str _, .obj (List.forall_mem_singleton.2 (.str _)), nofun⟩

theorem Kernel.plain_toJson (k : Kernel) : k.toJson.Plain fun _ => True := by
  refine .obj ?_
  simp only [List.forall_mem_cons]
  exact ⟨.str _, .obj (List.forall_mem_map.2 fun s _ => .str s.2), .str _,
    k.launch.grid.plain_toJson, k.launch.threadgroup.plain_toJson,
    .arr (List.forall_mem_map.2 fun b _ => b.plain_toJson),
    .arr (List.forall_mem_map.2 fun u _ => u.plain_toJson), .str _, nofun⟩

theorem Program.plain_toJson (p : Program) : p.toJson.Plain fun _ => True := by
  refine .obj ?_
  simp only [List.forall_mem_cons]
  exact ⟨.arr (List.forall_mem_map.2 fun k _ => k.plain_toJson), .str _, nofun⟩

namespace Program

/-- The text tells the kernels and everything in them. -/
theorem eq_of_text_eq {p q : Program} (h : p.text = q.text) : p = q :=
  toJson_injective (p.plain_toJson.eq_of_write_eq Spacing.isBlank_indented q.plain_toJson 0 h)

/-- A name that looks like the end of its field, and a label that looks like a number. -/
theorem eq_of_text_eq_quoted : ∃ p q r : Program, p.text = q.text ∧ p = q ∧ p.text ≠ r.text := by
  let kernel (x : Dim) (cell : Cell) : Kernel :=
    ⟨"copy\",\n", "\x7d", ⟨⟨x, .fixed 1, .fixed 1⟩, .maxThreads⟩, [.static, .metadata [cell]],
      [⟨0, 0, "size\x00", "]"⟩]⟩
  let p : Program := ⟨[kernel (.fixed 8) (.ofInt32 (-1))]⟩
  let q : Program := ⟨[kernel (.fixed 8) 4294967295]⟩
  let r : Program := ⟨[kernel (.preset "8") 4294967295]⟩
  have hpq : p.text = q.text := rfl
  have hne : p ≠ r := by decide
  exact ⟨p, q, r, hpq, eq_of_text_eq hpq, fun hpr => hne (eq_of_text_eq hpr)⟩

end Program

end TensorKernels
