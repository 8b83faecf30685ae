import Ucore.Proofs.SlobFree

/-! `slob_alloc` walks the list once, and if it has not found room it walks once more,
with a fresh page in the list. -/

namespace Ucore
open Lib

namespace Integrity

variable {h : Heap} {taken front back : List Chunk} {c p : Chunk} {units : Nat}

/-- `slob_alloc` takes a whole chunk or its first units. -/
theorem take (whole : Integrity h (front ++ c :: back) taken) (pred : Before p.start (front.map Chunk.start) ((c :: back).map Chunk.start))
    (member : p ∈ front ++ c :: back) (away : p.start ≠ c.start) (other : c.start ≠ h.arena) (positive : 0 < units)
    (room : units ≤ c.units) :
    ∃ free', Integrity (h.take p.start c.start units) free' (⟨c.start, units⟩ :: taken) ∧ h.SameElse (h.take p.start c.start units) ∧
      (h.take p.start c.start units).units c.start = units ∧
      ∀ d ∈ taken, (h.take p.start c.start units).units d.start = h.units d.start := by
  have cIn : c ∈ front ++ c :: back := by simp
  have cUnits := whole.units c cIn
  have cyclic := whole.cyclic
  have distinct := whole.layout.distinct
  rw [List.map_append, List.map_cons] at cyclic distinct
  have kept : ∀ d ∈ front ++ back, d ∈ front ++ c :: back ∧ d.start ≠ c.start := by
    intro d inside
    have old : d ∈ front ++ c :: back := by
      simp only [List.mem_append, List.mem_cons] at inside ⊢
      tauto
    refine ⟨old, fun same => ?_⟩
    have unique := List.nodup_append.mp distinct
    rcases List.mem_append.mp inside with inFront | inBack
    · exact unique.2.2 _ (List.mem_map_of_mem inFront) _ List.mem_cons_self same
    · exact (List.nodup_cons.mp unique.2.1).1 (same ▸ List.mem_map_of_mem inBack)
  have pIn : p ∈ front ++ back := by
    simp only [List.mem_append, List.mem_cons] at member ⊢
    rcases member with inFront | rfl | inBack
    · exact .inl inFront
    · exact absurd rfl away
    · exact .inr inBack
  have ordered := List.pairwise_append.mp whole.strict
  have orderedBack := List.pairwise_cons.mp ordered.2.1
  by_cases exactly : c.units = units
  · have eq : h.take p.start c.start units = { h with next := Function.update h.next p.start (h.next c.start), slobfree := p.start } := by
      rw [Heap.take, cUnits, if_pos exactly]
      rfl
    rw [eq]
    refine ⟨front ++ back, ⟨⟨?_, ?_, ?_, ?_⟩, ?_, whole.paged⟩, rfl, ?_, fun _ _ => rfl⟩
    · rw [List.map_append]
      refine cyclic.unlink pred away (by simp) ?_
      intro node _ apart
      exact Function.update_of_ne apart _ _
    · exact List.mem_map_of_mem pIn
    · exact fun d inside => whole.units d (kept d inside).1
    · rw [← exactly]
      exact whole.layout.remove other
    · exact whole.strict.sublist ((List.sublist_cons_self c back).append_left front)
    · rw [← exactly]
      exact cUnits
  · have less : units < c.units := by omega
    have fragment : Heap.plus c.start units ≠ c.start := by
      rw [plus_eq]
      omega
    have inner : ∀ d ∈ front ++ back, d.start ≠ Heap.plus c.start units := by
      intro d inside same
      rw [plus_eq] at same
      rcases List.mem_append.mp inside with inFront | inBack
      · have order := ordered.2.2 d inFront c List.mem_cons_self
        rw [Chunk.stop_eq] at order
        omega
      · have order := orderedBack.1 d inBack
        rw [Chunk.stop_eq] at order
        omega
    have eq : h.take p.start c.start units = { h with
        next := Function.update (Function.update h.next p.start (Heap.plus c.start units)) (Heap.plus c.start units) (h.next c.start)
        units := Function.update (Function.update h.units (Heap.plus c.start units) (c.units - units)) c.start units
        slobfree := p.start } := by
      rw [Heap.take, if_neg (by rw [cUnits]; exact exactly)]
      simp only [Heap.setNext, Heap.setUnits, Function.update_self, Function.update_of_ne away.symm, cUnits]
    rw [eq]
    refine ⟨front ++ ⟨Heap.plus c.start units, c.units - units⟩ :: back, ⟨⟨?_, ?_, ?_, ?_⟩, ?_, whole.paged⟩, rfl, ?_, ?_⟩
    · rw [List.map_append, List.map_cons]
      refine cyclic.replace pred away ?_ ?_ ?_ ?_
      · rw [← List.map_append]
        intro inside
        obtain ⟨d, inList, same⟩ := List.mem_map.mp inside
        exact inner d inList same
      · simp [Function.update_of_ne (inner p pIn)]
      · simp
      · rw [← List.map_append]
        intro node inside apart
        obtain ⟨d, inList, rfl⟩ := List.mem_map.mp inside
        simp [Function.update_of_ne apart, Function.update_of_ne (inner d inList)]
    · simp only [List.map_append, List.map_cons, List.mem_append, List.mem_cons]
      rcases List.mem_append.mp pIn with inFront | inBack
      · exact .inl (List.mem_map_of_mem inFront)
      · exact .inr (.inr (List.mem_map_of_mem inBack))
    · intro d inside
      by_cases isNew : d = ⟨Heap.plus c.start units, c.units - units⟩
      · simp [isNew, Function.update_of_ne fragment]
      · have old : d ∈ front ++ back := by
          simp only [List.mem_append, List.mem_cons] at inside ⊢
          tauto
        simp [Function.update_of_ne (kept d old).2, Function.update_of_ne (inner d old), whole.units d (kept d old).1]
    · exact whole.layout.cut other positive less
    · refine strict_join ordered.1 orderedBack.2 ?_ ?_
      · intro d inside
        have order := ordered.2.2 d inside c List.mem_cons_self
        simp only [plus_eq]
        omega
      · intro d inside
        have order := orderedBack.1 d inside
        rw [Chunk.stop_eq] at order ⊢
        simp only [plus_eq]
        omega
    · simp
    · intro d inside
      have apart := whole.layout.apart c cIn d inside
      have size := whole.layout.takenSized d inside
      rw [Chunk.Apart, Chunk.stop_eq, Chunk.stop_eq] at apart
      have first : d.start ≠ c.start := by omega
      have second : d.start ≠ Heap.plus c.start units := by
        rw [plus_eq]
        omega
      simp [Function.update_of_ne first, Function.update_of_ne second]

end Integrity

namespace Heap

variable {h : Heap} {prev fuel : Nat} {todo : List Nat}

private theorem slobAllocLoop_scan (size units : Nat) (path : Path h.next prev todo h.slobfree) (distinct : h.slobfree ∉ todo)
    (enough : todo.length < fuel) :
    (∃ before ∈ prev :: todo, ∃ cur ∈ todo ++ [h.slobfree], h.next before = cur ∧ units ≤ h.units cur ∧
        slobAllocLoop size units fuel prev (h.next prev) h = .ok (some cur, h.take before cur units)) ∨
      (∀ x ∈ todo ++ [h.slobfree], h.units x < units) ∧
        ∃ last, slobAllocLoop size units fuel prev (h.next prev) h =
          slobAllocLoop size units (fuel - todo.length) last h.slobfree h := by
  induction todo generalizing prev fuel with
  | nil =>
    have found : h.next prev = h.slobfree := path
    by_cases room : h.units h.slobfree ≥ units
    · refine .inl ⟨prev, List.mem_cons_self, h.slobfree, by simp, found, room, ?_⟩
      obtain ⟨fuel, rfl⟩ := Nat.exists_eq_add_of_lt enough
      rw [found, show [].length + fuel + 1 = fuel + 1 by simp, slobAllocLoop, if_pos room]
    · refine .inr ⟨?_, prev, by rw [found]; rfl⟩
      intro x inside
      obtain rfl : x = h.slobfree := by simpa using inside
      exact not_le.mp room
  | cons node todo ih =>
    have found : h.next prev = node := path.1
    have away : node ≠ h.slobfree := fun same => distinct (same ▸ List.mem_cons_self)
    cases fuel with
    | zero => cases enough
    | succ fuel =>
      by_cases room : h.units node ≥ units
      · refine .inl ⟨prev, List.mem_cons_self, node, List.mem_cons_self, found, room, ?_⟩
        rw [found, slobAllocLoop, if_pos room]
      · have step : slobAllocLoop size units (fuel + 1) prev (h.next prev) h = slobAllocLoop size units fuel node (h.next node) h := by
          rw [found, slobAllocLoop, if_neg room, if_neg away]
        rw [step]
        rcases ih path.2 (fun inside => distinct (List.mem_cons_of_mem _ inside)) (Nat.lt_of_succ_lt_succ enough) with
          ⟨before, beforeIn, cur, curIn, leads, enoughRoom, result⟩ | ⟨small, last, result⟩
        · exact .inl ⟨before, List.mem_cons_of_mem _ beforeIn, cur, List.mem_cons_of_mem _ curIn, leads, enoughRoom, result⟩
        · refine .inr ⟨?_, last, ?_⟩
          · intro x inside
            rcases List.mem_cons.mp inside with rfl | inside
            · exact not_le.mp room
            · exact small x inside
          · rw [result, List.length_cons, Nat.succ_sub_succ]

end Heap

namespace Integrity

variable {h : Heap} {free taken : List Chunk} {units fuel : Nat}

private theorem lap (whole : Integrity h free taken) (size : Nat) (two : 2 ≤ units) (enough : free.length ≤ fuel) :
    (∃ p h' free', Heap.slobAllocLoop size units fuel h.slobfree (h.next h.slobfree) h = .ok (some p, h') ∧
        Integrity h' free' (⟨p, units⟩ :: taken) ∧ (∃ steps, units ≤ h.units (h.next^[steps] h.slobfree)) ∧ h.SameElse h' ∧
        h'.units p = units ∧ ∀ d ∈ taken, h'.units d.start = h.units d.start) ∨
      (∀ c ∈ free, c.units < units) ∧
        ∃ last fuel', fuel' + free.length = fuel + 1 ∧ Heap.slobAllocLoop size units fuel h.slobfree (h.next h.slobfree) h =
          Heap.slobAllocLoop size units fuel' last h.slobfree h := by
  obtain ⟨first, rest, split⟩ := List.append_of_mem whole.start
  have cycle := whole.cyclic first h.slobfree rest split
  have distinct := (List.nodup_cons.mp cycle.distinct).1
  have count : (rest ++ first).length + 1 = free.length := by
    have total := congrArg List.length split
    simp only [List.length_append, List.length_cons, List.length_map] at total ⊢
    omega
  have nodes : ∀ y, y ∈ rest ++ first ++ [h.slobfree] ↔ y ∈ free.map Chunk.start := by
    intro y
    rw [split]
    simp only [List.mem_append, List.mem_cons, List.not_mem_nil, or_false]
    tauto
  have bound : (rest ++ first).length < fuel := by omega
  rcases Heap.slobAllocLoop_scan size units cycle.path distinct bound with
    ⟨before, beforeIn, cur, curIn, leads, room, result⟩ | ⟨small, last, result⟩
  · left
    have reached : ∃ steps, units ≤ h.units (h.next^[steps] h.slobfree) := by
      obtain ⟨steps, there⟩ := cycle.path.reach curIn
      exact ⟨steps, there ▸ room⟩
    obtain ⟨c, cIn, rfl⟩ := List.mem_map.mp ((nodes cur).mp curIn)
    obtain ⟨p, pIn, rfl⟩ := List.mem_map.mp ((nodes before).mp (by
      simp only [List.mem_cons, List.mem_append] at beforeIn ⊢
      tauto))
    obtain ⟨front, back, rfl⟩ := List.append_of_mem cIn
    have cyclic := whole.cyclic
    rw [List.map_append, List.map_cons] at cyclic
    have place := cyclic.before_of_next (by simpa using List.mem_map_of_mem (f := Chunk.start) pIn) leads
    rw [whole.units c cIn] at room
    have other : c.start ≠ h.arena := by
      intro same
      rw [whole.arena_eq cIn same] at room
      simp only at room
      omega
    have away : p.start ≠ c.start := by
      intro same
      rw [same] at leads
      exact whole.cyclic.next_ne (List.mem_map_of_mem cIn) (List.mem_map_of_mem whole.layout.sentinel) other.symm leads
    obtain ⟨free', integrity, same, own, kept⟩ := whole.take place pIn away other (by omega) room
    exact ⟨c.start, _, free', result, integrity, reached, same, own, kept⟩
  · right
    refine ⟨?_, last, fuel - (rest ++ first).length, by omega, result⟩
    intro c inside
    rw [← whole.units c inside]
    exact small _ ((nodes _).mpr (List.mem_map_of_mem inside))

private theorem pages_apart {page other : Frame} (away : page ≠ other) :
    page2kva page + pgSize ≤ page2kva other ∨ page2kva other + pgSize ≤ page2kva page := by
  simp only [page2kva, pgSize]
  rcases Nat.lt_or_gt_of_ne away with less | greater
  · left
    nlinarith
  · right
    nlinarith

private theorem grow {page : Frame} (whole : Integrity h free taken) (clear : Clear h.arena (page2kva page))
    (fresh : page2kva page ∉ h.grown) :
    ∃ h' free', h.grow (page2kva page) = .ok h' ∧ Integrity h' free' taken ∧
      { h with grown := page2kva page :: h.grown }.SameElse h' ∧ (∀ d ∈ taken, h'.units d.start = h.units d.start) ∧
      ∃ c ∈ free', 256 ≤ c.units := by
  have apart : ∀ old ∈ h.grown, old + pgSize ≤ page2kva page ∨ page2kva page + pgSize ≤ old := by
    intro old inside
    obtain ⟨other, rfl⟩ := whole.paged old inside
    refine pages_apart ?_
    rintro rfl
    exact fresh inside
  have grown : Integrity { h with grown := page2kva page :: h.grown } free (⟨page2kva page, 256⟩ :: taken) := by
    refine ⟨⟨whole.cyclic, whole.start, whole.units, whole.layout.grow clear apart⟩, whole.strict, ?_⟩
    intro kva inside
    rcases List.mem_cons.mp inside with rfl | inside
    · exact ⟨page, rfl⟩
    · exact whole.paged kva inside
  have filled : pgSize ≠ 0 ∧ slobUnits pgSize = 256 := ⟨by decide, by decide⟩
  obtain ⟨h', free', done, whole', same, kept, c, inside, room, _⟩ := grown.slobFree (.inl filled)
  exact ⟨h', free', done, whole', same, kept, c, inside, room⟩

end Integrity

theorem answerPages_answer {m m' : Mem} {n : Nat} {answer : Option Frame} (asked : m.answerPages n = (answer, m')) : m.pages 0 = answer := by
  unfold Mem.answerPages at asked
  split at asked
  next page same => exact same.trans (Prod.mk.inj asked).1
  next same => exact same.trans (Prod.mk.inj asked).1

namespace Heap

/-- What `alloc_pages` answers next has not been returned before, and neither contains
nor touches `arena`. -/
def Answers (h : Heap) : Prop :=
  ∀ page ∈ h.mem.pages 0, Clear h.arena (page2kva page) ∧ page2kva page ∉ h.grown

/-- No block on the list is large enough, so that `slob_alloc` asks for a page. -/
def Short (h : Heap) (size : Nat) : Prop := ∀ steps, h.units (h.next^[steps] h.slobfree) < slobUnits size

/-- Between the two heaps SLOB has got no page, or one because it was short of room. -/
def Extends (size : Nat) (h h' : Heap) : Prop :=
  ¬ h.Short size ∧ h.SameElse h' ∨ h.Short size ∧ ∃ page mem, h.mem.answerPages 1 = (some page, mem) ∧
    { h with mem := mem, grown := page2kva page :: h.grown }.SameElse h'

end Heap

namespace Integrity

variable {h : Heap} {free taken : List Chunk} {size : Nat}

private theorem short (whole : Integrity h free taken) (small : ∀ c ∈ free, c.units < slobUnits size) : h.Short size := by
  intro steps
  have member : h.next^[steps] h.slobfree ∈ free.map Chunk.start := by
    induction steps with
    | zero => exact whole.start
    | succ steps ih =>
      rw [Function.iterate_succ_apply']
      exact whole.cyclic.next_mem ih
  obtain ⟨c, inside, same⟩ := List.mem_map.mp member
  rw [← same, whole.units c inside]
  exact small c inside

/-- `slob_alloc` returns, either with a new chunk or because there was no page for it. -/
theorem slobAlloc (whole : Integrity h free taken) (answers : h.Short size → h.Answers) (small : size + slobUnit < pgSize)
    (two : 2 ≤ slobUnits size) :
    (∃ p h' free', h.slobAlloc size = .ok (some p, h') ∧ Integrity h' free' (⟨p, slobUnits size⟩ :: taken) ∧
        h.Extends size h' ∧ h'.units p = slobUnits size ∧ ∀ d ∈ taken, h'.units d.start = h.units d.start) ∨
      h.Short size ∧ h.mem.pages 0 = none ∧ h.slobAlloc size = .ok (none, { h with mem := (h.mem.answerPages 1).2 }) := by
  have fits : slobUnits size ≤ 256 := by
    simp only [slobUnit, pgSize] at small
    simp only [slobUnits, slobUnit, wrap]
    omega
  have asserted : wrap (size + slobUnit) < pgSize := (Nat.mod_le _ _).trans_lt small
  have opened : h.slobAlloc size =
      Heap.slobAllocLoop size (slobUnits size) (2 * h.fuel + 256) h.slobfree (h.next h.slobfree) h := by
    simp [Heap.slobAlloc, asserted]
  have length := whole.layout.length_le
  have bound : free.length < h.fuel := by
    unfold Heap.fuel
    omega
  rw [opened]
  have enough : free.length ≤ 2 * h.fuel + 256 := by omega
  rcases whole.lap size two enough with
    ⟨p, h', free', result, whole', ⟨steps, room⟩, same, own, kept⟩ | ⟨small', last, fuel, count, result⟩
  · exact .inl ⟨p, h', free', result, whole', .inl ⟨fun short => absurd (short steps) (not_lt.mpr room), same⟩, own, kept⟩
  rw [result]
  -- `slobfree` itself is too small, and the loop stands there
  obtain ⟨start, inside, same⟩ := List.mem_map.mp whole.start
  have tooSmall : ¬ h.units h.slobfree ≥ slobUnits size := by
    rw [← same, whole.units start inside]
    exact not_le.mpr (small' start inside)
  have notPage : size ≠ pgSize := by
    intro equal
    rw [equal] at small
    omega
  obtain ⟨fuel, rfl⟩ : ∃ more, fuel = more + 1 := ⟨fuel - 1, by omega⟩
  rw [Heap.slobAllocLoop, if_neg tooSmall, if_pos rfl, if_neg notPage]
  have isShort := whole.short small'
  unfold Heap.slobGetFreePages
  cases asked : h.mem.answerPages (2 ^ 0) with
  | mk answer mem =>
    cases answer with
    | none => exact .inr ⟨isShort, answerPages_answer asked, rfl⟩
    | some page =>
      left
      obtain ⟨clear, fresh⟩ := answers isShort page (answerPages_answer asked)
      have moved : Integrity { h with mem := mem } free taken := ⟨⟨whole.cyclic, whole.start, whole.units, whole.layout⟩, whole.strict, whole.paged⟩
      obtain ⟨h₁, free₁, grown, whole₁, same₁, kept₁, c, cIn, room⟩ := moved.grow clear fresh
      have length₁ := whole₁.layout.length_le
      have pages : h₁.grown = page2kva page :: h.grown := by rw [same₁]
      have enough : free₁.length ≤ fuel := by
        rw [pages, List.length_cons] at length₁
        unfold Heap.fuel at bound count
        omega
      simp only [grown, ok_bind]
      rcases whole₁.lap size two enough with
        ⟨p, h', free', result', whole', -, same', own, kept'⟩ | ⟨small₁, _⟩
      · refine ⟨p, h', free', result', whole', .inr ⟨isShort, page, mem, asked, ?_⟩, own, ?_⟩
        · rw [Heap.SameElse] at same₁ same' ⊢
          rw [same', same₁]
        · intro d inTaken
          rw [kept' d inTaken, kept₁ d inTaken]
      · exact absurd (small₁ c cIn) (by omega)

/-- A request for one unit gets it from the first chunk behind `slobfree`. -/
theorem slobAlloc_one (whole : Integrity h free taken) (away : h.next h.slobfree ≠ h.arena) :
    ∃ h' free', h.slobAlloc slobUnit = .ok (some (h.next h.slobfree), h') ∧
      Integrity h' free' (⟨h.next h.slobfree, 1⟩ :: taken) ∧ h.Extends slobUnit h' ∧ h'.units (h.next h.slobfree) = 1 ∧
      ∀ d ∈ taken, h'.units d.start = h.units d.start := by
  obtain ⟨c, cIn, start⟩ := List.mem_map.mp (whole.cyclic.next_mem whole.start)
  obtain ⟨p, pIn, same⟩ := List.mem_map.mp whole.start
  rw [← start] at away ⊢
  obtain ⟨front, back, rfl⟩ := List.append_of_mem cIn
  have positive := whole.layout.freeSized c cIn
  have cyclic := whole.cyclic
  rw [List.map_append, List.map_cons] at cyclic
  have leads : h.next p.start = c.start := by rw [same, start]
  have place := cyclic.before_of_next (by simpa using List.mem_map_of_mem pIn) leads
  have apart : p.start ≠ c.start := by
    intro equal
    rw [equal] at leads
    exact whole.cyclic.next_ne (List.mem_map_of_mem cIn) (List.mem_map_of_mem whole.layout.sentinel) away.symm leads
  obtain ⟨free', whole', sameElse, own, kept⟩ := whole.take place pIn apart away Nat.one_pos positive
  have room : h.units c.start ≥ 1 := by
    rw [whole.units c cIn]
    exact positive
  have asserted : wrap (slobUnit + slobUnit) < pgSize := by decide
  have one : slobUnits slobUnit = 1 := by decide
  have notShort : ¬ h.Short slobUnit := by
    intro short
    have first : h.units (h.next h.slobfree) < slobUnits slobUnit := short 1
    rw [← start, one] at first
    exact absurd room (not_le.mpr first)
  refine ⟨_, free', ?_, whole', .inl ⟨notShort, sameElse⟩, own, kept⟩
  have opened : h.slobAlloc slobUnit = Heap.slobAllocLoop slobUnit 1 (2 * h.fuel + 255 + 1) h.slobfree (h.next h.slobfree) h := by
    simp [Heap.slobAlloc, asserted, one]
  rw [opened, ← start, ← same, Heap.slobAllocLoop, if_pos room]

end Integrity

end Ucore
