set_option autoImplicit false

namespace TensorKernels

structure Table (α : Type) where
  entries : List (String × α)
  ascending : (entries.map Prod.fst).Pairwise (· < ·)

namespace Table

variable {α : Type}

/-- Puts an entry at its place; an entry with the same key is replaced. -/
def insertEntry (k : String) (v : α) : List (String × α) → List (String × α)
  | [] => [(k, v)]
  | (j, w) :: es =>
    if k = j then (k, v) :: es
    else if k < j then (k, v) :: (j, w) :: es
    else (j, w) :: insertEntry k v es

theorem mem_keys_insertEntry {k j : String} {v : α} {es : List (String × α)}
    (h : j ∈ (insertEntry k v es).map Prod.fst) : j = k ∨ j ∈ es.map Prod.fst := by
  induction es with
  | nil => simpa [insertEntry] using h
  | cons e es ih =>
    obtain ⟨i, w⟩ := e
    simp only [insertEntry] at h
    split at h
    · simp_all
    · split at h
      · simpa using h
      · simp only [List.map_cons, List.mem_cons] at h ⊢
        rcases h with h | h
        · exact .inr (.inl h)
        · exact (ih h).imp_right .inr

theorem ascending_insertEntry {k : String} {v : α} {es : List (String × α)}
    (h : (es.map Prod.fst).Pairwise (· < ·)) :
    ((insertEntry k v es).map Prod.fst).Pairwise (· < ·) := by
  induction es with
  | nil => simp [insertEntry]
  | cons e es ih =>
    obtain ⟨j, w⟩ := e
    simp only [List.map_cons, List.pairwise_cons] at h
    simp only [insertEntry]
    split
    · subst_vars
      simpa using h
    · rename_i hne
      split
      · rename_i hlt
        simp only [List.map_cons, List.pairwise_cons, List.mem_cons]
        refine ⟨?_, h⟩
        rintro i (rfl | hi)
        · exact hlt
        · exact String.lt_trans hlt (h.1 i hi)
      · rename_i hnlt
        simp only [List.map_cons, List.pairwise_cons]
        refine ⟨fun i hi => ?_, ih h.2⟩
        rcases mem_keys_insertEntry hi with rfl | hi
        · exact String.not_le.1 fun hle => hne (String.le_antisymm hle (String.not_lt.1 hnlt))
        · exact h.1 i hi

def empty : Table α := ⟨[], by simp⟩

instance : EmptyCollection (Table α) := ⟨empty⟩
instance : Inhabited (Table α) := ⟨empty⟩

def insert (t : Table α) (k : String) (v : α) : Table α :=
  ⟨insertEntry k v t.entries, ascending_insertEntry t.ascending⟩

def ofList (es : List (String × α)) : Table α := es.foldl (fun t e => t.insert e.1 e.2) empty

def get? (t : Table α) (k : String) : Option α := t.entries.lookup k

def size (t : Table α) : Nat := t.entries.length

theorem lookup_cons (k j : String) (v : α) (es : List (String × α)) :
    List.lookup j ((k, v) :: es) = if j = k then some v else es.lookup j := by
  by_cases h : j = k
  · simp [h]
  · simp [List.lookup_cons, h, beq_false_of_ne h]

theorem lookup_insertEntry (k j : String) (v : α) (es : List (String × α)) :
    (insertEntry k v es).lookup j = if j = k then some v else es.lookup j := by
  induction es with
  | nil => simp [insertEntry, lookup_cons]
  | cons e es ih =>
    obtain ⟨i, w⟩ := e
    simp only [insertEntry]
    split
    · subst_vars
      by_cases h : j = i <;> simp [lookup_cons, h]
    · split
      · simp [lookup_cons]
      · next hne _ =>
        rw [lookup_cons, lookup_cons, ih]
        by_cases hi : j = i
        · have hk : j ≠ k := fun e => hne (e ▸ hi)
          rw [if_pos hi, if_pos hi, if_neg hk]
        · rw [if_neg hi, if_neg hi]

@[simp] theorem get?_empty (j : String) : (empty : Table α).get? j = none := rfl

theorem get?_insert (t : Table α) (k j : String) (v : α) :
    (t.insert k v).get? j = if j = k then some v else t.get? j :=
  lookup_insertEntry k j v t.entries

/-- Of several entries with one key the last one counts. -/
theorem get?_ofList (es : List (String × α)) (k : String) :
    (ofList es).get? k = es.reverse.lookup k := by
  have hfold (t : Table α) : (es.foldl (fun t e => t.insert e.1 e.2) t).get? k =
      (es.reverse.lookup k).or (t.get? k) := by
    induction es generalizing t with
    | nil => rfl
    | cons e es ih =>
      calc ((e :: es).foldl (fun t e => t.insert e.1 e.2) t).get? k
        _ = (es.reverse.lookup k).or (if k = e.1 then some e.2 else t.get? k) := by
          rw [List.foldl_cons, ih, get?_insert]
        _ = ((es.reverse.lookup k).or (if k = e.1 then some e.2 else none)).or (t.get? k) := by
          rw [Option.or_assoc]
          split <;> rfl
        _ = ((e :: es).reverse.lookup k).or (t.get? k) := by
          rw [List.reverse_cons, List.lookup_append, lookup_cons]
          rfl
  rw [ofList, hfold, get?_empty, Option.or_none]

theorem exists_mem_of_get? {t : Table α} {k : String} {v : α} (h : t.get? k = some v) :
    ∃ e ∈ t.entries, e.2 = v := by
  obtain ⟨before, after, he, -⟩ := List.lookup_eq_some_iff.1 h
  exact ⟨(k, v), by rw [he]; exact List.mem_append_right _ List.mem_cons_self, rfl⟩

def map {β : Type} (f : α → β) (t : Table α) : Table β :=
  ⟨t.entries.map fun e => (e.1, f e.2), by
    rw [List.map_map]
    exact t.ascending⟩

theorem get?_map {β : Type} (f : α → β) (t : Table α) (k : String) :
    (t.map f).get? k = (t.get? k).map f := by
  change (t.entries.map fun e => (e.1, f e.2)).lookup k = (t.entries.lookup k).map f
  induction t.entries with
  | nil => rfl
  | cons e es ih =>
    rw [List.map_cons, lookup_cons, lookup_cons, ih]
    split <;> rfl

theorem ext {t u : Table α} (h : t.entries = u.entries) : t = u := by
  obtain ⟨es, _⟩ := t
  obtain ⟨fs, _⟩ := u
  exact Table.mk.injEq .. |>.mpr h

end Table

/-- The latest binding comes first. -/
structure Bindings where
  entries : List (String × Int)
  deriving DecidableEq, Repr

namespace Bindings

def empty : Bindings := ⟨[]⟩

instance : EmptyCollection Bindings := ⟨empty⟩
instance : Inhabited Bindings := ⟨empty⟩

def bind (b : Bindings) (name : String) (value : Int) : Bindings := ⟨(name, value) :: b.entries⟩

def ofList (ps : List (String × Int)) : Bindings := ps.foldl (fun b p => b.bind p.1 p.2) empty

def get? (b : Bindings) (name : String) : Option Int := b.entries.lookup name

@[simp] theorem get?_empty (name : String) : empty.get? name = none := rfl

theorem get?_bind (b : Bindings) (name other : String) (value : Int) :
    (b.bind name value).get? other = if other = name then some value else b.get? other := by
  by_cases h : other = name
  · simp [bind, get?, h]
  · simp [bind, get?, List.lookup_cons, h, beq_false_of_ne h]

@[simp] theorem get?_bind_self (b : Bindings) (name : String) (value : Int) :
    (b.bind name value).get? name = some value := by
  simp [get?_bind]

theorem get?_ofList (ps : List (String × Int)) (name : String) :
    (ofList ps).get? name = ps.reverse.lookup name := by
  have hfold (b : Bindings) :
      (ps.foldl (fun b p => b.bind p.1 p.2) b).entries = ps.reverse ++ b.entries := by
    induction ps generalizing b with
    | nil => rfl
    | cons p ps ih => rw [List.foldl_cons, ih, List.reverse_cons, List.append_assoc]; rfl
  rw [get?, ofList, hfold]
  exact congrArg (List.lookup name) (List.append_nil _)

end Bindings

def braced (label : String) : String := "\x7b" ++ label ++ "\x7d"

end TensorKernels
