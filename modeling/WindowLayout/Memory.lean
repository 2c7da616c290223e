theorem List.mem_of_lookup_eq_some [BEq α] [LawfulBEq α] {l : List (α × β)} {a : α} {b : β}
    (h : l.lookup a = some b) : (a, b) ∈ l := by
  obtain ⟨before, after, rfl, -⟩ := List.lookup_eq_some_iff.1 h
  simp

namespace WindowLayout

class Memory (κ : Type) (α : outParam Type) : Type where
  new : Nat → κ
  get : κ → String → Option α × κ
  put : κ → String → α → κ
  clear : κ → κ
  len : κ → Nat
  cap : κ → Nat
  /-- The entries, the most recently used first. -/
  iter : κ → List (String × α)

/-- A memory that finds under a text nothing but the value put there last. What it forgets, and
when, is its own business. -/
class LawfulMemory (κ : Type) {α : outParam Type} [Memory κ α] : Prop where
  iter_new {capacity : Nat} : 0 < capacity → Memory.iter (Memory.new capacity : κ) = []
  iter_clear (m : κ) : Memory.iter (Memory.clear m) = []
  mem_of_get {m : κ} {key : String} {a : α} :
    (Memory.get m key).1 = some a → (key, a) ∈ Memory.iter m
  mem_of_mem_get {m : κ} {key : String} {entry : String × α} :
    entry ∈ Memory.iter (Memory.get m key).2 → entry ∈ Memory.iter m
  mem_of_mem_put {m : κ} {key : String} {a : α} {entry : String × α} :
    entry ∈ Memory.iter (Memory.put m key a) →
      entry = (key, a) ∨ entry.1 ≠ key ∧ entry ∈ Memory.iter m

/-- A memory that forgets what was used least recently: looking a text up makes it the most recent
one, and so does putting it, which drops the least recent one where the capacity is exceeded. -/
class LawfulLru (κ : Type) {α : outParam Type} [Memory κ α] : Prop where
  iter_new {capacity : Nat} : 0 < capacity → Memory.iter (Memory.new capacity : κ) = []
  iter_clear (m : κ) : Memory.iter (Memory.clear m) = []
  get_eq (m : κ) (key : String) : (Memory.get m key).1 = (Memory.iter m).lookup key
  iter_get_of_some {m : κ} {key : String} {a : α} : (Memory.iter m).lookup key = some a →
    Memory.iter (Memory.get m key).2 = (key, a) :: (Memory.iter m).filter (·.1 ≠ key)
  iter_get_of_none {m : κ} {key : String} : (Memory.iter m).lookup key = none →
    Memory.iter (Memory.get m key).2 = Memory.iter m
  iter_put (m : κ) (key : String) (a : α) : Memory.iter (Memory.put m key a) =
    ((key, a) :: (Memory.iter m).filter (·.1 ≠ key)).take (Memory.cap m)
  len_eq (m : κ) : Memory.len m = (Memory.iter m).length
  cap_new {capacity : Nat} : 0 < capacity → Memory.cap (Memory.new capacity : κ) = capacity
  cap_get (m : κ) (key : String) : Memory.cap (Memory.get m key).2 = Memory.cap m
  cap_put (m : κ) (key : String) (a : α) : Memory.cap (Memory.put m key a) = Memory.cap m
  cap_clear (m : κ) : Memory.cap (Memory.clear m) = Memory.cap m

theorem mem_cons_filter {l : List (String × α)} {key : String} {a : α} {entry : String × α}
    (h : entry ∈ (key, a) :: l.filter (·.1 ≠ key)) :
    entry = (key, a) ∨ entry.1 ≠ key ∧ entry ∈ l := by
  rcases List.mem_cons.1 h with rfl | hold
  · exact .inl rfl
  · obtain ⟨hmem, hne⟩ := List.mem_filter.1 hold
    exact .inr ⟨of_decide_eq_true hne, hmem⟩

instance [Memory κ α] [LawfulLru κ] : LawfulMemory κ where
  iter_new := LawfulLru.iter_new
  iter_clear := LawfulLru.iter_clear
  mem_of_get {m key a} h := by
    rw [LawfulLru.get_eq] at h
    exact List.mem_of_lookup_eq_some h
  mem_of_mem_get {m key entry} h := by
    cases hfind : (Memory.iter m).lookup key with
    | none => rwa [LawfulLru.iter_get_of_none hfind] at h
    | some a =>
      rw [LawfulLru.iter_get_of_some hfind] at h
      rcases mem_cons_filter h with rfl | ⟨-, hold⟩
      · exact List.mem_of_lookup_eq_some hfind
      · exact hold
  mem_of_mem_put {m key a entry} h := by
    rw [LawfulLru.iter_put] at h
    exact mem_cons_filter (List.mem_of_mem_take h)

structure LruList (α : Type) : Type where
  capacity : Nat
  entries : List (String × α)

namespace LruList

def promote (m : LruList α) (key : String) (a : α) : LruList α :=
  { m with entries := (key, a) :: m.entries.filter (·.1 ≠ key) }

def get (m : LruList α) (key : String) : Option α × LruList α :=
  let found := m.entries.lookup key
  (found, found.elim m (m.promote key))

def put (m : LruList α) (key : String) (a : α) : LruList α :=
  { m with entries := (m.promote key a).entries.take m.capacity }

@[default_instance]
instance : Memory (LruList α) α where
  new capacity := ⟨capacity, []⟩
  get := get
  put := put
  clear m := { m with entries := [] }
  len m := m.entries.length
  cap := capacity
  iter := entries

theorem get_of_some {m : LruList α} {key : String} {a : α} (h : m.entries.lookup key = some a) :
    m.get key = (some a, m.promote key a) := by
  simp [get, h]

theorem get_of_none {m : LruList α} {key : String} (h : m.entries.lookup key = none) :
    m.get key = (none, m) := by
  simp [get, h]

instance : LawfulLru (LruList α) where
  iter_new _ := rfl
  iter_clear _ := rfl
  get_eq _ _ := rfl
  iter_get_of_some h := congrArg (·.2.entries) (get_of_some h)
  iter_get_of_none h := congrArg (·.2.entries) (get_of_none h)
  iter_put _ _ _ := rfl
  len_eq _ := rfl
  cap_new _ := rfl
  cap_get m key := by
    simp only [Memory.cap, Memory.get, get]
    cases m.entries.lookup key <;> rfl
  cap_put _ _ _ := rfl
  cap_clear _ := rfl

end LruList

end WindowLayout
