import Rdbparser.Format.StreamBlock

/-! Which entries of a stream are handed out, by what is known of the memory that the fields and values of
the entry before are in. -/

namespace rdbparser

open format

/-- Whether the fields and values of the entry before can be released, and whether the master fields will
then still be there. -/
structure Hold where
  rel : Bool
  master : Bool

/-- An entry without fields behind as many master fields as there are slots. -/
def bare (m : Nat) (x : StreamItem) : Bool := m = RdbStreamEntry.TMP_SIZE ∧ x.fields = .own []

def Hold.next (m : Nat) (h : Hold) (x : StreamItem) : Hold where
  rel := (!x.fields.is_same || h.master) && !bare m x
  master := h.master && !(x.fields.is_same && decide (RdbStreamEntry.TMP_SIZE < m))

/-- The entries handed out of those that are read. -/
def visit (m : Nat) : Hold → List StreamItem → List StreamItem × Option Hold
  | h, [] => ([], some h)
  | h, x :: xs =>
    if h.rel then
      if x.live then
        if x.fields.is_same && !h.master then ([], none)
        else (x :: (visit m (h.next m x) xs).1, (visit m (h.next m x) xs).2)
      else visit m (h.next m x) xs
    else ([], none)

/-- The entries that are handed out are among those that are not deleted, in their order. -/
theorem visit_sublist (m : Nat) (h : Hold) (xs : List StreamItem) :
    (visit m h xs).1.Sublist (xs.filter StreamItem.live) := by
  induction xs generalizing h with
  | nil => exact .slnil
  | cons x xs ih =>
    unfold visit
    split
    · cases hlive : x.live with
      | true =>
        rw [if_pos rfl, List.filter_cons_of_pos hlive]
        split
        · exact List.nil_sublist _
        · exact (ih _).cons_cons x
      | false =>
        rw [if_neg Bool.false_ne_true, List.filter_cons_of_neg (by rw [hlive]; exact Bool.false_ne_true)]
        exact ih _
    · exact List.nil_sublist _

/-- How many entries can have the master fields: one if these are in a block. -/
def Hold.shares (m : Nat) (h : Hold) (xs : List StreamItem) : Prop :=
  RdbStreamEntry.TMP_SIZE < m →
    (xs.filter fun x => x.fields.is_same).length ≤ if h.master then 1 else 0

/-- The entries may share the master fields if those behind the first may, where the first may. -/
theorem Hold.shares_cons {m : Nat} {h : Hold} {x : StreamItem} {xs : List StreamItem}
    (hx : x.fields.is_same = true → h.master = true) :
    h.shares m (x :: xs) ↔ (h.next m x).shares m xs := by
  refine imp_congr_right fun hlt => ?_
  cases hsame : x.fields.is_same with
  | true =>
    rw [List.filter_cons, if_pos hsame, List.length_cons, if_pos (hx hsame)]
    simp [Hold.next, hsame, hlt]
  | false =>
    rw [List.filter_cons, if_neg (by rw [hsame]; exact Bool.false_ne_true)]
    simp [Hold.next, hsame]

/-- When all entries are handed out, and whether the last of them can be released. -/
theorem visit_all {m : Nat} {h : Hold} {xs : List StreamItem} (hm : m ≤ RdbStreamEntry.TMP_SIZE → h.master = true)
    (hlive : ∀ x ∈ xs, x.live = true) :
    ((visit m h xs).1 = xs ↔
        (xs ≠ [] → h.rel = true) ∧ h.shares m xs ∧ ∀ x ∈ xs.dropLast, bare m x = false) ∧
      ((visit m h xs).1 = xs → ∃ h', (visit m h xs).2 = some h' ∧
        (h'.rel = true ↔ (xs = [] → h.rel = true) ∧ ∀ x ∈ xs.getLast?, bare m x = false)) := by
  induction xs generalizing h with
  | nil =>
    refine ⟨⟨fun _ => ⟨fun hne => absurd rfl hne, fun _ => Nat.zero_le _, fun x hx => ?_⟩, fun _ => rfl⟩,
      fun _ => ⟨h, rfl, fun hrel => ⟨fun _ => hrel, fun x hx => ?_⟩, fun hrel => hrel.1 rfl⟩⟩
    · cases hx
    · cases hx
  | cons x xs ih =>
    have hx := hlive x (List.mem_cons_self ..)
    unfold visit
    rw [if_pos hx]
    cases hrel : h.rel with
    | false =>
      rw [if_neg Bool.false_ne_true]
      refine ⟨⟨fun hnil => ?_, fun hall => absurd (hall.1 (List.cons_ne_nil x xs)) Bool.false_ne_true⟩,
        fun hnil => ?_⟩
      · cases hnil
      · cases hnil
    | true =>
      rw [if_pos rfl]
      by_cases hgone : (x.fields.is_same && !h.master) = true
      · obtain ⟨hsame, hmaster⟩ := Bool.and_eq_true_iff.mp hgone
        have hmaster : h.master = false := Bool.not_eq_true' _ |>.mp hmaster
        rw [if_pos hgone]
        refine ⟨⟨fun hnil => ?_, fun hall => ?_⟩, fun hnil => ?_⟩
        · cases hnil
        · have hlt : RdbStreamEntry.TMP_SIZE < m := by
            by_contra hle
            rw [hm (Nat.le_of_not_lt hle)] at hmaster
            cases hmaster
          have hshares := hall.2.1 hlt
          rw [List.filter_cons, if_pos hsame, hmaster] at hshares
          cases hshares
        · cases hnil
      · rw [if_neg hgone]
        have hthere : x.fields.is_same = true → h.master = true := by
          intro hsame
          rw [hsame, Bool.true_and, Bool.not_eq_true', Bool.not_eq_false] at hgone
          exact hgone
        have hnext : (h.next m x).rel = !bare m x := by
          rw [Hold.next]
          cases hsame : x.fields.is_same with
          | true => simp [hthere hsame]
          | false => rfl
        have hm' : m ≤ RdbStreamEntry.TMP_SIZE → (h.next m x).master = true := by
          intro hle
          simp [Hold.next, hm hle, Nat.not_lt.mpr hle]
        obtain ⟨hiff, hlast⟩ := ih hm' fun y hy => hlive y (List.mem_cons_of_mem x hy)
        rw [hnext] at hiff hlast
        rw [Hold.shares_cons hthere, List.cons.injEq, and_iff_right rfl, hiff]
        cases xs with
        | nil =>
          refine ⟨by simp, fun _ => ?_⟩
          simp [visit, hnext]
        | cons y ys =>
          refine ⟨?_, fun hall => ?_⟩
          · rw [List.dropLast_cons_cons]
            simp only [ne_eq, reduceCtorEq, not_false_eq_true, true_implies, Bool.not_eq_true', List.mem_cons,
              forall_eq_or_imp, true_and]
            exact ⟨fun ⟨hx, hsh, hy⟩ => ⟨hsh, hx, hy⟩, fun ⟨hsh, hx, hy⟩ => ⟨hx, hsh, hy⟩⟩
          · obtain ⟨h', hsome, hrel'⟩ := hlast (hiff.mpr hall)
            refine ⟨h', hsome, ?_⟩
            rw [hrel', List.getLast?_cons_cons]
            simp

variable {E : Env}

open StreamNode

/-- The entries that are read: the header counts those that are not deleted. -/
def format.StreamBlock.visited (p : StreamBlock) : List StreamItem := p.items.take p.items_count

/-- The entries handed out, each with its node; every node has its own master fields. -/
def visits : Hold → List (StreamNode E) → List (StreamNode E × StreamItem) × Option Hold
  | h, [] => ([], some h)
  | h, n :: ns =>
    match visit n.block.master.length ⟨h.rel, true⟩ n.block.visited with
    | (xs, none) => (xs.map (n, ·), none)
    | (xs, some h) => (xs.map (n, ·) ++ (visits h ns).1, (visits h ns).2)

/-- Every listpack has the entries that are not deleted in front, and of these at most one has the master
fields if there are more of them than slots; one without fields behind as many master fields as slots has
none of them behind it. -/
structure Deliverable (nodes : List (StreamNode E)) : Prop where
  front : ∀ n ∈ nodes, ∀ x ∈ n.block.visited, x.live = true
  shares : ∀ n ∈ nodes, RdbStreamEntry.TMP_SIZE < n.block.master.length →
    (n.block.items.filter fun x => x.fields.is_same && x.live).length ≤ 1
  bare : ∀ y ∈ (live_items nodes).dropLast, bare y.1.block.master.length y.2 = false

theorem live_items_cons (n : StreamNode E) (ns : List (StreamNode E)) :
    live_items (n :: ns) = (n.block.items.filter StreamItem.live).map (n, ·) ++ live_items ns :=
  List.flatMap_cons

theorem visited_length {p : StreamBlock} (hp : p.Counted) :
    p.visited.length = (p.items.filter StreamItem.live).length := by
  have hle := List.length_filter_le StreamItem.live p.items
  rw [StreamBlock.visited, List.length_take, hp.1]
  omega

/-- All that is read is handed out if all that is not deleted is. -/
theorem visited_eq {p : StreamBlock} (hp : p.Counted) :
    (∀ x ∈ p.visited, x.live = true) ↔ p.visited = p.items.filter StreamItem.live := by
  constructor
  · intro hlive
    have hsub : (p.visited.filter StreamItem.live).Sublist (p.items.filter StreamItem.live) :=
      (List.take_sublist _ _).filter _
    rw [List.filter_eq_self.mpr hlive] at hsub
    exact hsub.eq_of_length (visited_length hp)
  · intro heq x hx
    rw [heq] at hx
    exact (List.mem_filter.mp hx).2

theorem visit_visited {p : StreamBlock} (h : Hold) :
    (visit p.master.length h p.visited).1.Sublist (p.items.filter StreamItem.live) :=
  (visit_sublist _ _ _).trans ((List.take_sublist _ _).filter _)

/-- The same over all nodes. -/
theorem visits_sublist (h : Hold) (nodes : List (StreamNode E)) :
    (visits h nodes).1.Sublist (live_items nodes) := by
  induction nodes generalizing h with
  | nil => exact .slnil
  | cons n ns ih =>
    have hsub := visit_visited (p := n.block) ⟨h.rel, true⟩
    rw [live_items_cons, visits]
    split
    · next heq =>
      rw [heq] at hsub
      exact (hsub.map _).trans (List.sublist_append_left _ _)
    · next heq =>
      rw [heq] at hsub
      exact (hsub.map _).append (ih _)

/-- A block that hands out all it has is read up to there. -/
theorem visit_complete {p : StreamBlock} (hp : p.Counted) {h : Hold}
    (hall : (p.items.filter StreamItem.live).length ≤ (visit p.master.length h p.visited).1.length) :
    (∀ x ∈ p.visited, x.live = true) ∧ (visit p.master.length h p.visited).1 = p.visited := by
  have hvisit := visit_sublist p.master.length h p.visited
  have hle := hvisit.length_le
  have hle' := List.length_filter_le StreamItem.live p.visited
  have hlen := visited_length hp
  have hlive : ∀ x ∈ p.visited, x.live = true :=
    List.length_filter_eq_length_iff.mp (by omega)
  rw [List.filter_eq_self.mpr hlive] at hvisit
  exact ⟨hlive, hvisit.eq_of_length (by omega)⟩

/-- A node hands out all it has, and then the others do. -/
theorem visits_cons {h : Hold} {n : StreamNode E} {ns : List (StreamNode E)} (hn : n.block.Counted) :
    (visits h (n :: ns)).1 = live_items (n :: ns) ↔
      (∀ x ∈ n.block.visited, x.live = true) ∧
        ∃ h', visit n.block.master.length ⟨h.rel, true⟩ n.block.visited = (n.block.visited, some h') ∧
          (visits h' ns).1 = live_items ns := by
  have hsub := visit_visited (p := n.block) ⟨h.rel, true⟩
  have hcomplete := visit_complete hn (h := ⟨h.rel, true⟩)
  rw [live_items_cons]
  constructor
  · intro heq
    have hlen := congrArg List.length heq
    rw [List.length_append, List.length_map] at hlen
    have hle := hsub.length_le
    -- what is handed out is no longer than what there is, node by node
    cases hv : visit n.block.master.length ⟨h.rel, true⟩ n.block.visited with
    | mk xs r =>
      rw [hv] at hle hcomplete
      dsimp only at hle hcomplete
      cases r with
      | none =>
        simp only [visits, hv, List.length_map] at hlen
        obtain ⟨hlive, rfl⟩ := hcomplete (by omega)
        obtain ⟨-, hlast⟩ := visit_all (h := ⟨h.rel, true⟩) (fun _ => rfl) hlive
        obtain ⟨h', hsome, -⟩ := hlast (by rw [hv])
        rw [hv] at hsome
        cases hsome
      | some h' =>
        simp only [visits, hv, List.length_append, List.length_map] at hlen heq
        have hrest := (visits_sublist h' ns).length_le
        obtain ⟨hlive, rfl⟩ := hcomplete (by omega)
        refine ⟨hlive, h', rfl, ?_⟩
        rw [(visited_eq hn).mp hlive] at heq
        exact List.append_cancel_left heq
  · rintro ⟨hlive, h', hv, hrest⟩
    simp only [visits, hv, hrest]
    rw [(visited_eq hn).mp hlive]

/-- What is so of all but the last of two lists in a row: the last of the first counts if there is a second. -/
theorem forall_dropLast_append {α : Type} {xs ys : List α} {p : α → Prop} :
    (∀ x ∈ (xs ++ ys).dropLast, p x) ↔
      (∀ x ∈ xs.dropLast, p x) ∧ (ys ≠ [] → ∀ x ∈ xs.getLast?, p x) ∧ ∀ y ∈ ys.dropLast, p y := by
  cases ys with
  | nil => simp
  | cons y ys =>
    rw [List.dropLast_append_of_ne_nil (List.cons_ne_nil y ys)]
    rcases List.eq_nil_or_concat xs with rfl | ⟨xs, x, rfl⟩
    · simp
    · simp only [List.concat_eq_append, List.mem_append, List.mem_singleton, List.dropLast_concat,
        List.getLast?_concat, ne_eq, reduceCtorEq, not_false_eq_true, true_implies, Option.mem_def,
        Option.some.injEq, forall_eq', or_imp, forall_and, forall_eq, and_assoc]

/-- The entries that can have the master fields are counted among those that are handed out. -/
theorem shares_iff {p : StreamBlock} (hp : p.Counted) (hlive : ∀ x ∈ p.visited, x.live = true) (rel : Bool) :
    Hold.shares p.master.length ⟨rel, true⟩ p.visited ↔
      (RdbStreamEntry.TMP_SIZE < p.master.length →
        (p.items.filter fun x => x.fields.is_same && x.live).length ≤ 1) := by
  rw [Hold.shares, if_pos rfl, (visited_eq hp).mp hlive, List.filter_filter]

/-- All entries that are not deleted are handed out if and only if the nodes are deliverable. By induction on the
nodes: what the ones in front have left is whether the entry before can be released. -/
theorem visits_iff {nodes : List (StreamNode E)} (hcounted : ∀ n ∈ nodes, n.block.Counted) {h : Hold} :
    (visits h nodes).1 = live_items nodes ↔
      (live_items nodes ≠ [] → h.rel = true) ∧ Deliverable nodes := by
  induction nodes generalizing h with
  | nil =>
    refine ⟨fun _ => ⟨fun hne => absurd rfl hne, ⟨?_, ?_, ?_⟩⟩, fun _ => rfl⟩ <;> intro x hx <;> cases hx
  | cons n ns ih =>
    have hn := hcounted n (List.mem_cons_self ..)
    have hns : ∀ n' ∈ ns, n'.block.Counted := fun n' hn' => hcounted n' (List.mem_cons_of_mem n hn')
    rw [visits_cons hn]
    constructor
    · rintro ⟨hlive, h₁, hv, hrest⟩
      obtain ⟨hiff, hlast⟩ := visit_all (m := n.block.master.length) (h := ⟨h.rel, true⟩) (fun _ => rfl) hlive
      have hall : (visit n.block.master.length ⟨h.rel, true⟩ n.block.visited).1 = n.block.visited := by rw [hv]
      obtain ⟨hne, hshares, hdrop⟩ := hiff.mp hall
      obtain ⟨h', hsome, hrel⟩ := hlast hall
      rw [hv] at hsome
      obtain rfl := Option.some.inj hsome
      obtain ⟨hne', hdel⟩ := (ih hns).mp hrest
      refine ⟨fun hnil => ?_, List.forall_mem_cons.mpr ⟨hlive, hdel.front⟩,
        List.forall_mem_cons.mpr ⟨(shares_iff hn hlive h.rel).mp hshares, hdel.shares⟩, ?_⟩
      · by_cases hvisited : n.block.visited = []
        · rw [live_items_cons, ← (visited_eq hn).mp hlive, hvisited] at hnil
          exact (hrel.mp (hne' hnil)).1 hvisited
        · exact hne hvisited
      · rw [live_items_cons, ← (visited_eq hn).mp hlive, forall_dropLast_append, ← List.map_dropLast,
          List.getLast?_map]
        refine ⟨List.forall_mem_map.mpr hdrop, fun hnil y hy => ?_, hdel.bare⟩
        obtain ⟨x, hx, rfl⟩ := Option.mem_map.mp hy
        exact (hrel.mp (hne' hnil)).2 x hx
    · rintro ⟨hne, hdel⟩
      obtain ⟨hlive, hfront⟩ := List.forall_mem_cons.mp hdel.front
      obtain ⟨hshares, hsharesn⟩ := List.forall_mem_cons.mp hdel.shares
      have hbare := hdel.bare
      rw [live_items_cons, ← (visited_eq hn).mp hlive, forall_dropLast_append, ← List.map_dropLast,
        List.getLast?_map] at hbare
      obtain ⟨hdrop, hlastbare, hbaren⟩ := hbare
      rw [live_items_cons, ← (visited_eq hn).mp hlive] at hne
      obtain ⟨hiff, hlast⟩ := visit_all (m := n.block.master.length) (h := ⟨h.rel, true⟩) (fun _ => rfl) hlive
      have hall := hiff.mpr ⟨fun hvisited => hne (by simp [hvisited]), (shares_iff hn hlive h.rel).mpr hshares,
        List.forall_mem_map.mp hdrop⟩
      obtain ⟨h', hsome, hrel⟩ := hlast hall
      refine ⟨hlive, h', Prod.ext hall hsome, (ih hns).mpr ⟨fun hnil => ?_, hfront, hsharesn, hbaren⟩⟩
      refine hrel.mpr ⟨fun _ => hne (by simp [hnil]), fun x hx => ?_⟩
      exact hlastbare hnil (n, x) (Option.mem_map_of_mem _ hx)

/-- The master fields are not taken by an entry that is read, unless they are in `tmp`. -/
theorem visit_master {m : Nat} {h h' : Hold} {xs : List StreamItem} (hv : (visit m h xs).2 = some h') :
    h'.master = true ↔ h.master = true ∧ (RdbStreamEntry.TMP_SIZE < m → ∀ x ∈ xs, x.fields.is_same = false) := by
  induction xs generalizing h with
  | nil =>
    obtain rfl := Option.some.inj hv
    exact (and_iff_left fun _ x hx => absurd hx List.not_mem_nil).symm
  | cons x xs ih =>
    have hnext : (visit m (h.next m x) xs).2 = some h' := by
      unfold visit at hv
      split at hv
      · split at hv
        · split at hv
          · cases hv
          · exact hv
        · exact hv
      · cases hv
    rw [ih hnext, Hold.next, List.forall_mem_cons]
    simp only [Bool.and_eq_true, Bool.not_eq_true', Bool.and_eq_false_iff, decide_eq_false_iff_not]
    constructor
    · rintro ⟨⟨hm, hx⟩, hxs⟩
      exact ⟨hm, fun hlt => ⟨hx.resolve_right fun h => h hlt, hxs hlt⟩⟩
    · rintro ⟨hm, hxs⟩
      refine ⟨⟨hm, ?_⟩, fun hlt => (hxs hlt).2⟩
      by_cases hlt : RdbStreamEntry.TMP_SIZE < m
      · exact .inl (hxs hlt).1
      · exact .inr hlt

/-- All entries of a listpack are gone through and the last can be released, if and only if the one before them
can be, no entry is without fields behind as many master fields as there are slots, and the block of the master
fields, if they are in one, is taken once at most. Whether an entry is deleted makes no difference. -/
theorem visit_through {m : Nat} {h : Hold} {xs : List StreamItem} (hm : m ≤ RdbStreamEntry.TMP_SIZE → h.master = true) :
    (∃ h', (visit m h xs).2 = some h' ∧ h'.rel = true) ↔ h.rel = true ∧ h.shares m xs ∧ ∀ x ∈ xs, bare m x = false := by
  induction xs generalizing h with
  | nil =>
    constructor
    · rintro ⟨h', hlast, hrel⟩
      obtain rfl := Option.some.inj hlast
      exact ⟨hrel, fun _ => Nat.zero_le _, fun x hx => absurd hx List.not_mem_nil⟩
    · rintro ⟨hrel, -⟩
      exact ⟨h, rfl, hrel⟩
  | cons x xs ih =>
    have hm' : m ≤ RdbStreamEntry.TMP_SIZE → (h.next m x).master = true := by
      intro hle
      simp [Hold.next, hm hle, Nat.not_lt.mpr hle]
    have ih := ih hm'
    cases hrel : h.rel with
    | false =>
      unfold visit
      rw [hrel, if_neg Bool.false_ne_true]
      refine iff_of_false ?_ fun hall => absurd hall.1 Bool.false_ne_true
      rintro ⟨h', hlast, -⟩
      cases hlast
    | true =>
      cases hgone : x.fields.is_same && !h.master with
      | true =>
        obtain ⟨hsame, hmaster⟩ := Bool.and_eq_true_iff.mp hgone
        have hmaster : h.master = false := Bool.not_eq_true' _ |>.mp hmaster
        refine iff_of_false ?_ fun hall => ?_
        · unfold visit
          rw [hrel, if_pos rfl, hgone, if_pos rfl]
          have hnext : (h.next m x).rel = false := by simp [Hold.next, hsame, hmaster]
          split
          · rintro ⟨h', hlast, -⟩
            cases hlast
          · rw [ih, hnext]
            exact fun hall => absurd hall.1 Bool.false_ne_true
        · have hlt : RdbStreamEntry.TMP_SIZE < m := by
            by_contra hle
            rw [hm (Nat.le_of_not_lt hle)] at hmaster
            cases hmaster
          have hshares := hall.2.1 hlt
          rw [List.filter_cons, if_pos hsame, hmaster] at hshares
          cases hshares
      | false =>
        have hthere : x.fields.is_same = true → h.master = true := by
          intro hsame
          rw [hsame, Bool.true_and, Bool.not_eq_false'] at hgone
          exact hgone
        have hnext : (h.next m x).rel = !bare m x := by
          rw [Hold.next]
          cases hsame : x.fields.is_same with
          | true => simp [hthere hsame]
          | false => rfl
        have hstep : (visit m h (x :: xs)).2 = (visit m (h.next m x) xs).2 := by
          conv_lhs => unfold visit
          rw [hrel, if_pos rfl, hgone, if_neg Bool.false_ne_true]
          split <;> rfl
        rw [hstep, ih, hnext, Bool.not_eq_true', Hold.shares_cons hthere, List.forall_mem_cons]
        exact ⟨fun ⟨hx, hsh, hxs⟩ => ⟨rfl, hsh, hx, hxs⟩, fun ⟨_, hsh, hx, hxs⟩ => ⟨hx, hsh, hxs⟩⟩

/-- What the entries are read into can be released behind each of them, and at the end. As in `visit`, the
entries are those that are read, whether they are deleted or not. -/
structure Tidy (nodes : List (StreamNode E)) : Prop where
  bare : ∀ n ∈ nodes, ∀ x ∈ n.block.visited, bare n.block.master.length x = false
  shares : ∀ n ∈ nodes, RdbStreamEntry.TMP_SIZE < n.block.master.length →
    (n.block.visited.filter fun x => x.fields.is_same).length ≤ 1
  last : ∀ n ∈ nodes.getLast?, RdbStreamEntry.TMP_SIZE < n.block.master.length →
    ∀ x ∈ n.block.visited, x.fields.is_same = false

/-- What is asked of the first of the nodes, and of the others. -/
theorem tidy_cons {n : StreamNode E} {ns : List (StreamNode E)} : Tidy (n :: ns) ↔
    ((∀ x ∈ n.block.visited, rdbparser.bare n.block.master.length x = false) ∧
      (RdbStreamEntry.TMP_SIZE < n.block.master.length →
        (n.block.visited.filter fun x => x.fields.is_same).length ≤ 1) ∧
      (ns = [] → RdbStreamEntry.TMP_SIZE < n.block.master.length → ∀ x ∈ n.block.visited, x.fields.is_same = false)) ∧
      Tidy ns := by
  constructor
  · intro h
    obtain ⟨hbare, hbares⟩ := List.forall_mem_cons.mp h.bare
    obtain ⟨hshare, hshares⟩ := List.forall_mem_cons.mp h.shares
    refine ⟨⟨hbare, hshare, fun hnil => h.last n ?_⟩, hbares, hshares, fun n' hn' => h.last n' ?_⟩
    · rw [hnil]
      rfl
    · rw [List.getLast?_cons, Option.mem_def.mp hn']
      rfl
  · rintro ⟨⟨hbare, hshare, hlast⟩, hns⟩
    refine ⟨List.forall_mem_cons.mpr ⟨hbare, hns.bare⟩, List.forall_mem_cons.mpr ⟨hshare, hns.shares⟩, fun n' hn' => ?_⟩
    rw [List.getLast?_cons, Option.mem_def] at hn'
    cases hlist : ns.getLast? with
    | none =>
      rw [hlist] at hn'
      obtain rfl := Option.some.inj hn'
      exact hlast (List.getLast?_eq_none_iff.mp hlist)
    | some n'' =>
      rw [hlist] at hn'
      obtain rfl := Option.some.inj hn'
      exact hns.last _ hlist

/-- The nodes are gone through and what is left can be destroyed if and only if this is so. -/
theorem visits_through {nodes : List (StreamNode E)} {h : Hold} :
    (∃ h', (visits h nodes).2 = some h' ∧ h'.rel = true ∧ h'.master = true) ↔
      h.rel = true ∧ (nodes = [] → h.master = true) ∧ Tidy nodes := by
  induction nodes generalizing h with
  | nil =>
    constructor
    · rintro ⟨h', hlast, hrel, hmaster⟩
      obtain rfl := Option.some.inj hlast
      refine ⟨hrel, fun _ => hmaster, ?_, ?_, ?_⟩ <;> intro n hn <;> cases hn
    · rintro ⟨hrel, hmaster, -⟩
      exact ⟨h, rfl, hrel, hmaster rfl⟩
  | cons n ns ih =>
    have hnode : (∃ h', (visit n.block.master.length ⟨h.rel, true⟩ n.block.visited).2 = some h' ∧ h'.rel = true) ↔
        h.rel = true ∧ (RdbStreamEntry.TMP_SIZE < n.block.master.length →
          (n.block.visited.filter fun x => x.fields.is_same).length ≤ 1) ∧
            ∀ x ∈ n.block.visited, bare n.block.master.length x = false := visit_through fun _ => rfl
    have hall : (∃ h', (visits h (n :: ns)).2 = some h' ∧ h'.rel = true ∧ h'.master = true) ↔
        ∃ h₁, (visit n.block.master.length ⟨h.rel, true⟩ n.block.visited).2 = some h₁ ∧
          h₁.rel = true ∧ (ns = [] → h₁.master = true) ∧ Tidy ns := by
      simp only [← ih, visits]
      rcases visit n.block.master.length ⟨h.rel, true⟩ n.block.visited with ⟨xs, _ | h₁⟩
      · simp
      · simp
    rw [hall, tidy_cons]
    constructor
    · rintro ⟨h₁, hlast, hrel, hmaster, htidy⟩
      obtain ⟨hrel, hshare, hbare⟩ := hnode.mp ⟨h₁, hlast, hrel⟩
      refine ⟨hrel, fun hnil => absurd hnil (List.cons_ne_nil n ns), ⟨hbare, hshare, fun hnil => ?_⟩, htidy⟩
      exact ((visit_master hlast).mp (hmaster hnil)).2
    · rintro ⟨hrel, -, ⟨hbare, hshare, hmaster⟩, htidy⟩
      obtain ⟨h₁, hlast, hrel₁⟩ := hnode.mpr ⟨hrel, hshare, hbare⟩
      exact ⟨h₁, hlast, hrel₁, fun hnil => (visit_master hlast).mpr ⟨rfl, hmaster hnil⟩, htidy⟩

end rdbparser
