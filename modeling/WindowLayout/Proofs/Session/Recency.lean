import Mathlib
import WindowLayout.Proofs.Session.Answers

/-! What a session keeps, finds and counts depends on nothing but the texts looked up so far. -/

namespace List

theorem eraseDups_filter [DecidableEq α] (p : α → Bool) (l : List α) :
    (l.filter p).eraseDups = l.eraseDups.filter p := by
  match l with
  | [] => rfl
  | a :: l =>
    have ih := eraseDups_filter p (l.filter fun b => !b == a)
    rw [eraseDups_cons, filter_cons, filter_cons, ← ih, filter_filter]
    split
    · rw [eraseDups_cons, filter_filter]
      simp only [Bool.and_comm]
    · congr 1
      apply filter_congr
      intro b _
      rcases eq_or_ne b a with rfl | hne
      · simp_all
      · simp [hne]
termination_by l.length
decreasing_by exact Nat.lt_succ_of_le (length_filter_le _ _)

theorem eraseDups_cons_filter [DecidableEq α] (a : α) (l : List α) :
    (a :: l).eraseDups = a :: l.eraseDups.filter (· ≠ a) := by
  rw [eraseDups_cons, eraseDups_filter]
  simp
  rfl

theorem nodup_eraseDups [DecidableEq α] (l : List α) : l.eraseDups.Nodup := by
  induction l with
  | nil => exact nodup_nil
  | cons a l ih =>
    rw [eraseDups_cons_filter]
    exact nodup_cons.2 ⟨by simp, ih.filter _⟩

theorem length_eraseDups [DecidableEq α] (l : List α) : l.eraseDups.length = l.toFinset.card := by
  rw [← toFinset_card_of_nodup (nodup_eraseDups l)]
  congr 1
  ext a
  simp [mem_eraseDups]

theorem take_filter_take_succ [DecidableEq α] {l : List α} (h : l.Nodup) (a : α) (n : Nat) :
    ((l.take (n + 1)).filter (· ≠ a)).take n = (l.filter (· ≠ a)).take n := by
  induction l generalizing n with
  | nil => rfl
  | cons b l ih =>
    obtain ⟨hb, hl⟩ := nodup_cons.1 h
    rw [take_succ_cons]
    rcases eq_or_ne b a with rfl | hne
    · have hfilter {k : List α} (hk : k ⊆ l) : k.filter (· ≠ b) = k := by
        apply filter_eq_self.2
        intro c hc
        simpa using ne_of_mem_of_not_mem (hk hc) hb
      rw [filter_cons_of_neg (by simp), filter_cons_of_neg (by simp),
        hfilter (take_subset n l), hfilter (Subset.refl l), take_take, Nat.min_self]
    · rw [filter_cons_of_pos (by simpa), filter_cons_of_pos (by simpa)]
      cases n with
      | zero => rfl
      | succ n => rw [take_succ_cons, take_succ_cons, ih hl]

theorem length_cons_filter_ne [DecidableEq α] {l : List α} (h : l.Nodup) {a : α} (ha : a ∈ l) :
    (a :: l.filter (· ≠ a)).length = l.length := by
  have herase : l.filter (· ≠ a) = l.erase a := by
    rw [h.erase_eq_filter]
    apply filter_congr
    intro b _
    simp [bne, Bool.beq_eq_decide_eq]
  rw [herase]
  exact (perm_cons_erase ha).length_eq.symm

end List

namespace WindowLayout

/-- The texts that a request reads with success, up to the first that is no expression. -/
def Request.lookups (request : Request) : List String :=
  request.texts.takeWhile fun text => (Expr.parse text).isOk

namespace Cache

variable [Memory κ α]

def capacity (cache : Cache κ) : Nat := cache.memory?.elim 0 Memory.cap

variable [LawfulLru κ] {cache : Cache κ} {key : String} {a : α}

theorem capacity_empty (capacity : Nat) : (empty capacity : Cache κ).capacity = capacity := by
  rw [empty]
  split
  · exact Eq.symm ‹_›
  · exact LawfulLru.cap_new (Nat.pos_of_ne_zero ‹_›)

theorem capacity_clear (cache : Cache κ) : cache.clear.capacity = cache.capacity := by
  obtain ⟨_ | m⟩ := cache
  · rfl
  · exact LawfulLru.cap_clear m

theorem capacity_get (cache : Cache κ) (key : String) :
    (cache.get key).2.capacity = cache.capacity := by
  obtain ⟨_ | m⟩ := cache
  · rfl
  · exact LawfulLru.cap_get m key

theorem capacity_put (cache : Cache κ) (key : String) (a : α) :
    (cache.put key a).capacity = cache.capacity := by
  obtain ⟨_ | m⟩ := cache
  · rfl
  · exact LawfulLru.cap_put m key a

theorem size_eq (cache : Cache κ) : cache.size = cache.entries.length := by
  obtain ⟨_ | m⟩ := cache
  · rfl
  · exact LawfulLru.len_eq m

theorem get_eq (cache : Cache κ) (key : String) :
    (cache.get key).1 = cache.entries.lookup key := by
  obtain ⟨_ | m⟩ := cache
  · rfl
  · exact LawfulLru.get_eq m key

theorem entries_get_of_some (h : (cache.get key).1 = some a) :
    (cache.get key).2.entries = (key, a) :: cache.entries.filter (·.1 ≠ key) := by
  rw [get_eq] at h
  obtain ⟨_ | m⟩ := cache
  · cases h
  · exact LawfulLru.iter_get_of_some h

theorem entries_get_of_none (h : (cache.get key).1 = none) :
    (cache.get key).2.entries = cache.entries := by
  rw [get_eq] at h
  obtain ⟨_ | m⟩ := cache
  · rfl
  · exact LawfulLru.iter_get_of_none h

theorem entries_put (cache : Cache κ) (key : String) (a : α) : (cache.put key a).entries =
    ((key, a) :: cache.entries.filter (·.1 ≠ key)).take cache.capacity := by
  obtain ⟨_ | m⟩ := cache
  · rfl
  · exact LawfulLru.iter_put m key a

theorem isSome_get_iff : (cache.get key).1.isSome ↔ key ∈ cache.entries.map Prod.fst := by
  rw [get_eq, List.lookup_isSome_iff, List.mem_map]
  simp only [beq_iff_eq]
  apply exists_congr
  intro entry
  exact and_congr_right fun _ => eq_comm

end Cache

namespace Session

def remember (history : List String) : Request → List String
  | .clear => []
  | request => history ++ request.lookups

def recent (capacity : Nat) (history : List String) : List String :=
  history.reverse.eraseDups.take capacity

def recalled (capacity : Nat) (history : List String) : List String → List String
  | [] => []
  | text :: texts =>
    let later := recalled capacity (history ++ [text]) texts
    if text ∈ recent capacity history then text :: later else later

def lookedUp (requests : List Request) : List String := requests.foldl remember []

theorem recent_concat (capacity : Nat) (history : List String) (text : String) :
    recent capacity (history ++ [text]) =
      (text :: (recent capacity history).filter (· ≠ text)).take capacity := by
  rw [recent, List.reverse_concat, List.eraseDups_cons_filter]
  cases capacity with
  | zero => rfl
  | succ n =>
    rw [List.take_succ_cons, List.take_succ_cons, recent,
      List.take_filter_take_succ (List.nodup_eraseDups _)]

theorem nodup_recent (capacity : Nat) (history : List String) :
    (recent capacity history).Nodup :=
  (List.nodup_eraseDups _).sublist (List.take_sublist _ _)

theorem length_recent (capacity : Nat) (history : List String) :
    (recent capacity history).length = min capacity history.toFinset.card := by
  rw [recent, List.length_take, List.length_eraseDups, List.toFinset_reverse]

theorem recalled_zero (history texts : List String) : recalled 0 history texts = [] := by
  induction texts generalizing history with
  | nil => rfl
  | cons text texts ih => simp [recalled, recent, ih]

variable [Memory κ Expr]

/-- A memory as a history of lookups leaves it. -/
structure Remembers (capacity : Nat) (history : List String) (cache : Cache κ) : Prop where
  capacity_eq : cache.capacity = capacity
  keys_eq : cache.entries.map Prod.fst = recent capacity history
  faithful : cache.Faithful

variable [LawfulLru κ]

namespace Remembers

variable {capacity : Nat} {history : List String} {cache : Cache κ} {text : String}

theorem empty (capacity : Nat) : Remembers capacity [] (.empty capacity : Cache κ) :=
  ⟨Cache.capacity_empty capacity, by simp [recent], Cache.faithful_empty capacity⟩

theorem clear (h : Remembers capacity history cache) : Remembers capacity [] cache.clear :=
  ⟨(Cache.capacity_clear cache).trans h.capacity_eq, by simp [recent], Cache.faithful_clear cache⟩

theorem isSome_get_iff (h : Remembers capacity history cache) (text : String) :
    (cache.get text).1.isSome ↔ text ∈ recent capacity history := by
  rw [← h.keys_eq, Cache.isSome_get_iff]

theorem size_eq (h : Remembers capacity history cache) :
    cache.size = min capacity history.toFinset.card := by
  rw [← length_recent, ← h.keys_eq, List.length_map, Cache.size_eq]

theorem get_of_some (h : Remembers capacity history cache) {e : Expr}
    (he : (cache.get text).1 = some e) :
    Remembers capacity (history ++ [text]) (cache.get text).2 := by
  refine ⟨(Cache.capacity_get cache text).trans h.capacity_eq, ?_, h.faithful.get text⟩
  have hmem : text ∈ recent capacity history := by
    rw [← h.isSome_get_iff, he]
    rfl
  -- The text only changes its place, so there is nothing to drop.
  have hlength : (text :: (recent capacity history).filter (· ≠ text)).length ≤ capacity := by
    rw [List.length_cons_filter_ne (nodup_recent ..) hmem, length_recent]
    exact Nat.min_le_left ..
  rw [recent_concat, List.take_of_length_le hlength, ← h.keys_eq, Cache.entries_get_of_some he,
    List.map_cons, List.filter_map]
  rfl

theorem get_of_none (h : Remembers capacity history cache) (hnone : (cache.get text).1 = none) :
    Remembers capacity history (cache.get text).2 :=
  ⟨(Cache.capacity_get cache text).trans h.capacity_eq,
    by rw [Cache.entries_get_of_none hnone, h.keys_eq], h.faithful.get text⟩

theorem put (h : Remembers capacity history cache) {e : Expr} (he : Expr.parse text = .ok e) :
    Remembers capacity (history ++ [text]) (cache.put text e) := by
  refine ⟨(Cache.capacity_put cache text e).trans h.capacity_eq, ?_, h.faithful.put he⟩
  rw [recent_concat, ← h.keys_eq, ← h.capacity_eq, Cache.entries_put, List.map_take, List.map_cons,
    List.filter_map]
  rfl

variable {session : Session κ}

theorem visit_of_ok (h : Remembers capacity history session.cache) {e : Expr}
    (he : Expr.parse text = .ok e) :
    Remembers capacity (history ++ [text]) (session.visit text).cache ∧
      (session.visit text).hits =
        session.hits ++ if text ∈ recent capacity history then [text] else [] := by
  simp only [visit, he, ← h.isSome_get_iff text]
  cases hget : (session.cache.get text).1 with
  | some e' => exact ⟨h.get_of_some hget, rfl⟩
  | none => exact ⟨(h.get_of_none hget).put he, (List.append_nil _).symm⟩

theorem visit_of_error (h : Remembers capacity history session.cache) {e : ParseError}
    (he : Expr.parse text = .error e) :
    Remembers capacity history (session.visit text).cache ∧
      (session.visit text).cache.entries = session.cache.entries ∧
      (session.visit text).hits = session.hits := by
  simp only [visit, he]
  cases hget : (session.cache.get text).1 with
  | some e' => cases (h.faithful.parse_eq hget).symm.trans he
  | none => exact ⟨h.get_of_none hget, Cache.entries_get_of_none hget, rfl⟩

theorem run_lookup_of_error (h : Remembers capacity history cache) {e : ParseError}
    (he : Expr.parse text = .error e) (hits : List String) :
    ∃ next : Cache κ, (lookup text).run.run ⟨cache, hits⟩ = (.error e, ⟨next, hits⟩) ∧
      next.entries = cache.entries := by
  let session : Session κ := ⟨cache, hits⟩
  have hsession : Remembers capacity history session.cache := h
  obtain ⟨-, hentries, hhits⟩ := hsession.visit_of_error he
  refine ⟨(session.visit text).cache, ?_, hentries⟩
  rw [run_lookup h.faithful, he]
  exact congrArg (fun hits => (_, Session.mk _ hits)) hhits

theorem visitAll (h : Remembers capacity history session.cache) (texts : List String) :
    let lookups := texts.takeWhile fun text => (Expr.parse text).isOk
    Remembers capacity (history ++ lookups) (session.visitAll texts).cache ∧
      (session.visitAll texts).hits = session.hits ++ recalled capacity history lookups := by
  induction texts generalizing history session with
  | nil => simpa [Session.visitAll, recalled] using h
  | cons text texts ih =>
    cases hparse : Expr.parse text with
    | error e =>
      obtain ⟨hcache, -, hhits⟩ := h.visit_of_error hparse
      rw [List.takeWhile_cons_of_neg (by simp [hparse, Except.isOk, Except.toBool]),
        visitAll_cons_of_error hparse]
      simpa [recalled] using ⟨hcache, hhits⟩
    | ok e =>
      obtain ⟨hvisit, hvisitHits⟩ := h.visit_of_ok hparse
      obtain ⟨hcache, hhits⟩ := ih hvisit
      rw [List.takeWhile_cons_of_pos (by simp [hparse, Except.isOk, Except.toBool]),
        visitAll_cons_of_ok hparse]
      refine ⟨by simpa using hcache, ?_⟩
      rw [hhits, hvisitHits, recalled]
      split <;> simp

theorem step (h : Remembers capacity history cache) (request : Request) :
    Remembers capacity (remember history request) (step cache request).2 ∧
      (Session.step cache request).1.hits = recalled capacity history request.lookups := by
  rw [step_eq h.faithful]
  cases request with
  | clear => exact ⟨h.clear, rfl⟩
  | _ => exact h.visitAll _

theorem run (h : Remembers capacity history cache) (requests : List Request) :
    Remembers capacity (requests.foldl remember history) (run cache requests).2 := by
  induction requests generalizing history cache with
  | nil => exact h
  | cons request requests ih => exact ih (h.step request).1

end Remembers

/-- After every request the memory holds the texts looked up most recently, the last one first, with
what they spell; a lookup was served from it when its text was among them. -/
theorem run_keeps_recent_lookups (κ : Type) [Memory κ Expr] [LawfulLru κ] (capacity : Nat)
    (requests : List Request) (request : Request) :
    ∃ reply, ∃ cache : Cache κ,
      run (.empty capacity) (requests ++ [request]) =
        ((run (.empty capacity : Cache κ) requests).1 ++ [reply], cache) ∧
      cache.entries.map Prod.fst = recent capacity (lookedUp (requests ++ [request])) ∧
      (cache.entries.map Prod.fst).Nodup ∧
      (∀ entry ∈ cache.entries, Expr.parse entry.1 = .ok entry.2) ∧
      reply.hits = recalled capacity (lookedUp requests) request.lookups ∧
      reply.kept = min capacity (lookedUp (requests ++ [request])).toFinset.card ∧
      (∀ text e hits, Expr.parse text = .error e →
        ∃ next : Cache κ, (lookup text).run.run ⟨cache, hits⟩ = (.error e, ⟨next, hits⟩) ∧
          next.entries = cache.entries) ∧
      (capacity = 0 → reply.hits = []) := by
  have hbefore : Remembers capacity (lookedUp requests) (run (.empty capacity : Cache κ) requests).2 :=
    (Remembers.empty capacity).run requests
  obtain ⟨hafter, hhits⟩ := hbefore.step request
  have hlookedUp : lookedUp (requests ++ [request]) = remember (lookedUp requests) request :=
    List.foldl_concat ..
  rw [hlookedUp]
  refine ⟨_, _, run_concat _ requests request, hafter.keys_eq, ?_, hafter.faithful, hhits, ?_, ?_,
    ?_⟩
  · rw [hafter.keys_eq]
    exact nodup_recent _ _
  · rw [← hafter.size_eq, step_eq hbefore.faithful]
  · intro text e hits he
    exact hafter.run_lookup_of_error he hits
  · rintro rfl
    rw [hhits, recalled_zero]

theorem run_keeps_recent_lookups_two_kept :
    let requests : List Request := [.parse "1/2", .parse "50%", .parse "1/2"]
    ∃ reply, ∃ cache : Cache (LruList Expr),
      run (.empty 2) (requests ++ [.layout ⟨"10px", "1/2", "+", "0"⟩]) =
        ((run (.empty 2 : Cache (LruList Expr)) requests).1 ++ [reply], cache) ∧
      cache.entries.map Prod.fst = ["1/2", "10px"] ∧ reply.hits = ["1/2"] ∧ reply.kept = 2 := by
  intro requests
  obtain ⟨reply, cache, hrun, hkeys, -, -, hhits, hkept, -, -⟩ :=
    run_keeps_recent_lookups (LruList Expr) 2 requests (.layout ⟨"10px", "1/2", "+", "0"⟩)
  refine ⟨reply, cache, hrun, hkeys.trans ?_, hhits.trans ?_, hkept.trans ?_⟩
  · decide +kernel
  · decide +kernel
  · decide +kernel

end Session

end WindowLayout
