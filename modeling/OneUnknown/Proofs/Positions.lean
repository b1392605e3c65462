import OneUnknown.Expression.Positions
import OneUnknown.Proofs.Recording
/-!
# The index of a sequence is exact

Each list of the index holds the places of what it is for, and no others, in ascending order.  For
the lists that are made by looking at one node at a time that is a property of such a pass.  The
terms are collected in buckets instead, and which bucket a term goes to depends on those before it;
but in the end the bucket of a key holds what a pass that looks for this key alone would find, and
the buckets stand in the order in which such terms occur first.

* `Positions.Lists`: what it means for a list of places to be exact;
* `Positions.lists_places`, `Positions.lists_operator`: the lists made in one pass;
* `Positions.lists_merged`: two of them, put together and sorted;
* `Positions.keys_enter`, `Positions.bucket_enter`: what one more term does to the buckets;
* `Positions.firstOccurrences_keys`, `Positions.bucket_likeTerms`: what all terms do to them;
* `Positions.ofNodes_isExact`: the index as a whole;
* `Positions.onlyMultiplication_iff`, `Sequence.split?_eq_relations`: what it is used for.
-/

namespace OneUnknown

/-- The key under which a node is collected: that of a group that can be added up. -/
def Node.termKey? (node : Node) : Option TermKey :=
  (node.asGroup?.filter Group.isAddable).map Group.key

theorem Node.termKey?_toNode {g : Group} {key : TermKey} : g.toNode.termKey? = some key ↔
    (g.letter ≠ none ∨ g.power = []) ∧ g.key = key := by
  simp [termKey?, Group.toNode, asGroup?, Option.filter, Group.isAddable]

theorem Node.termKey?_eq_some {node : Node} {key : TermKey} : node.termKey? = some key ↔
    ∃ g : Group, node = g.toNode ∧ (g.letter ≠ none ∨ g.power = []) ∧ g.key = key := by
  constructor
  · intro h
    cases node with
    | group letter number power => exact ⟨⟨letter, number, power⟩, rfl, termKey?_toNode.1 h⟩
    | _ => cases h
  · rintro ⟨g, rfl, h⟩
    exact termKey?_toNode.2 h

namespace Positions

variable {nodes : List Node} {node : Node} {key : TermKey} {i : Nat}

/-! ## Lists of places -/

/-- A list of places that is exact: it has the places of all nodes with a property, and no others,
in ascending order. -/
structure Lists (nodes : List Node) (property : Node → Prop) (list : List Nat) : Prop where
  ascending : list.Pairwise (· < ·)
  mem_iff : ∀ i, i ∈ list ↔ ∃ node, nodes[i]? = some node ∧ property node

theorem Lists.congr {property property' : Node → Prop} {list : List Nat}
    (h : Lists nodes property list) (hiff : ∀ node, property node ↔ property' node) :
    Lists nodes property' list :=
  ⟨h.ascending, fun i => by simp only [h.mem_iff, hiff]⟩

/-- What a pass over the nodes enters with their places stands in the order of the places. -/
theorem pairwise_filterMap_zipIdx {α : Type} {entry : Node × Nat → Option α} {place : α → Nat}
    (hplace : ∀ node i a, entry (node, i) = some a → place a = i) (nodes : List Node) :
    (nodes.zipIdx.filterMap entry).Pairwise fun a a' => place a < place a' := by
  have hzip : nodes.zipIdx.Pairwise fun p p' => p.2 < p'.2 := by
    rw [← List.pairwise_map (f := Prod.snd) (R := (· < ·)), List.zipIdx_map_snd]
    exact List.pairwise_lt_range'
  refine hzip.filterMap entry fun p p' hlt a ha a' ha' => ?_
  rw [hplace _ _ _ ha, hplace _ _ _ ha']
  exact hlt

/-- An entry that is made for one node alone is made where this node stands. -/
theorem mem_filterMap_zipIdx {α : Type} {entry : Node × Nat → Option α} {a : α}
    (hentry : ∀ node' j, entry (node', j) = some a ↔ node' = node ∧ j = i) :
    a ∈ nodes.zipIdx.filterMap entry ↔ nodes[i]? = some node := by
  simp only [List.mem_filterMap, Prod.exists, hentry]
  constructor
  · rintro ⟨_, _, hmem, rfl, rfl⟩
    exact List.mk_mem_zipIdx_iff_getElem?.1 hmem
  · intro h
    exact ⟨node, i, List.mk_mem_zipIdx_iff_getElem?.2 h, rfl, rfl⟩

theorem lists_places (property : Node → Bool) (nodes : List Node) :
    Lists nodes (fun node => property node = true) (places property nodes) where
  ascending := pairwise_filterMap_zipIdx
    (fun _ _ _ h => (Option.some.inj (Option.ite_none_right_eq_some.1 h).2).symm) nodes
  mem_iff := fun i => by
    simp [places, List.mem_filterMap, List.mk_mem_zipIdx_iff_getElem?]

theorem mem_operators {op : Operator} :
    (op, i) ∈ (ofNodes nodes).operators ↔ nodes[i]? = some (.operator op) :=
  mem_filterMap_zipIdx fun node' j => by cases node' <;> simp

theorem mem_relations {r : Relation} :
    (r, i) ∈ (ofNodes nodes).relations ↔ nodes[i]? = some (.relation r) :=
  mem_filterMap_zipIdx fun node' j => by cases node' <;> simp

theorem pairwise_relations (nodes : List Node) :
    (ofNodes nodes).relations.Pairwise fun entry entry' => entry.2 < entry'.2 :=
  pairwise_filterMap_zipIdx (fun node' j a h => by cases node' <;> cases h; rfl) nodes

theorem pairwise_operators (nodes : List Node) :
    (ofNodes nodes).operators.Pairwise fun entry entry' => entry.2 < entry'.2 :=
  pairwise_filterMap_zipIdx (fun node' j a h => by cases node' <;> cases h; rfl) nodes

theorem lists_operator (op : Operator) (nodes : List Node) :
    Lists nodes (fun node => node = .operator op) ((ofNodes nodes).operator op) where
  ascending := by
    refine (pairwise_operators nodes).filterMap _ fun entry entry' hlt i hi i' hi' => ?_
    obtain rfl := Option.some.inj (Option.ite_none_right_eq_some.1 hi).2
    obtain rfl := Option.some.inj (Option.ite_none_right_eq_some.1 hi').2
    exact hlt
  mem_iff := fun i => by
    simp [operator, List.mem_filterMap, mem_operators]

/-! ## Two lists together -/

theorem Lists.merge {property property' : Node → Prop} {list list' : List Nat}
    (h : Lists nodes property list) (h' : Lists nodes property' list')
    (hdisjoint : ∀ node, property node → ¬property' node) :
    Lists nodes (fun node => property node ∨ property' node) (list ++ list').mergeSort where
  ascending := by
    have hnodup : (list ++ list').mergeSort.Nodup := by
      rw [(List.mergeSort_perm _ _).nodup_iff]
      refine List.Nodup.append (h.ascending.imp ne_of_lt) (h'.ascending.imp ne_of_lt)
        fun i hi hi' => ?_
      obtain ⟨node, hnode, hproperty⟩ := (h.mem_iff i).1 hi
      obtain ⟨node', hnode', hproperty'⟩ := (h'.mem_iff i).1 hi'
      cases hnode.symm.trans hnode'
      exact hdisjoint node hproperty hproperty'
    refine List.Pairwise.imp₂ (fun _ _ => lt_of_le_of_ne) ?_ hnodup
    exact List.pairwise_mergeSort' (· ≤ ·) _
  mem_iff := fun i => by
    rw [List.mem_mergeSort, List.mem_append, h.mem_iff, h'.mem_iff, ← exists_or]
    simp only [and_or_left]

theorem lists_merged {first second : Operator} (hne : first ≠ second) (nodes : List Node) :
    Lists nodes (fun node => node = .operator first ∨ node = .operator second)
      ((ofNodes nodes).merged first second) :=
  (lists_operator first nodes).merge (lists_operator second nodes) fun _ h h' =>
    hne (Node.operator.inj (h.symm.trans h'))

/-! ## One more term -/

section

variable (key key' : TermKey) (place : Nat) (terms : List (TermKey × List Nat))

theorem bucket_cons (entry : TermKey × List Nat) :
    bucket key (entry :: terms) = if entry.1 = key then entry.2 else bucket key terms := by
  rw [bucket, List.find?_cons]
  split <;> simp_all [bucket]

/-- A term goes to the end of the bucket of its key, and of no other. -/
theorem bucket_enter : bucket key' (enter key place terms) =
    if key = key' then bucket key' terms ++ [place] else bucket key' terms := by
  induction terms with
  | nil =>
    rw [enter, bucket_cons]
    rfl
  | cons entry rest ih =>
    rw [enter]
    split
    · rename_i heq
      simp only [bucket_cons, heq]
      split <;> rfl
    · rename_i hne
      simp only [bucket_cons, ih]
      split
      · rename_i heq
        rw [if_neg (heq ▸ Ne.symm hne)]
      · rfl

/-- A bucket is made for a key that has none, behind the others. -/
theorem keys_enter : (enter key place terms).map Prod.fst =
    if key ∈ terms.map Prod.fst then terms.map Prod.fst else terms.map Prod.fst ++ [key] := by
  induction terms with
  | nil => rfl
  | cons entry rest ih =>
    rw [enter]
    split
    · rename_i heq
      simp [heq]
    · rename_i hne
      rw [List.map_cons, ih]
      split <;> simp_all [Ne.symm hne]

end

/-! ## All terms -/

theorem places_concat (property : Node → Bool) (nodes : List Node) (node : Node) :
    places property (nodes ++ [node]) =
      if property node then places property nodes ++ [nodes.length] else places property nodes := by
  simp only [places, List.zipIdx_append, List.filterMap_append]
  split <;> simp_all

theorem likeTerms_concat (nodes : List Node) (node : Node) :
    likeTerms (nodes ++ [node]) = node.termKey?.elim (likeTerms nodes) fun key =>
      enter key nodes.length (likeTerms nodes) := by
  simp only [likeTerms, List.zipIdx_append, List.foldl_append, List.zipIdx_cons, List.zipIdx_nil,
    List.foldl_cons, List.foldl_nil, Node.termKey?, Nat.zero_add]
  cases node.asGroup? with
  | none => rfl
  | some g => cases h : g.isAddable <;> simp [Option.filter, h]

/-- The keys of the buckets are those of the terms, each once, in the order in which they occur
first. -/
theorem firstOccurrences_keys (nodes : List Node) :
    FirstOccurrences (nodes.filterMap Node.termKey?) ((likeTerms nodes).map Prod.fst) := by
  induction nodes using List.reverseRecOn with
  | nil => exact ⟨List.nodup_nil, fun _ => .rfl, nofun⟩
  | append_singleton nodes node ih =>
    rw [likeTerms_concat, List.filterMap_append]
    cases hkey : node.termKey? with
    | none => simpa [hkey] using ih
    | some key =>
      rw [Option.elim_some, keys_enter, List.filterMap_cons_some hkey, List.filterMap_nil]
      split
      · rename_i hmem
        exact ih.concat_of_mem hmem
      · rename_i hnew
        exact ih.concat_of_notMem hnew

/-- The bucket of a key is what a pass finds that looks for this key alone. -/
theorem bucket_likeTerms (key : TermKey) (nodes : List Node) :
    bucket key (likeTerms nodes) = places (fun node => node.termKey? = some key) nodes := by
  induction nodes using List.reverseRecOn with
  | nil => rfl
  | append_singleton nodes node ih =>
    rw [likeTerms_concat, places_concat]
    cases hkey : node.termKey? with
    | none => simp [ih]
    | some key' => simp [bucket_enter, ih]

/-! ## The buckets -/

theorem mem_iff_bucket {terms : List (TermKey × List Nat)} (h : (terms.map Prod.fst).Nodup)
    {entry : TermKey × List Nat} :
    entry ∈ terms ↔ entry.1 ∈ terms.map Prod.fst ∧ bucket entry.1 terms = entry.2 := by
  induction terms with
  | nil => simp
  | cons first rest ih =>
    obtain ⟨hfirst, hrest⟩ := List.nodup_cons.1 h
    rw [List.mem_cons, ih hrest, List.map_cons, List.mem_cons, bucket_cons]
    split
    · rename_i heq
      have hnew : entry.1 ∉ rest.map Prod.fst := heq ▸ hfirst
      simp [hnew, heq, Prod.ext_iff, eq_comm]
    · rename_i hne
      have hother : entry ≠ first := fun heq => hne (congrArg Prod.fst heq.symm)
      simp [hother, Ne.symm hne]

theorem mem_terms_iff {entry : TermKey × List Nat} : entry ∈ (ofNodes nodes).terms ↔
    entry.1 ∈ (ofNodes nodes).terms.map Prod.fst ∧ (ofNodes nodes).termPlaces entry.1 = entry.2 :=
  mem_iff_bucket (firstOccurrences_keys nodes).nodup

theorem lists_termPlaces (key : TermKey) (nodes : List Node) :
    Lists nodes (fun node => node.termKey? = some key) ((ofNodes nodes).termPlaces key) := by
  have heq : (ofNodes nodes).termPlaces key = places (fun node => node.termKey? = some key) nodes :=
    bucket_likeTerms key nodes
  rw [heq]
  exact (lists_places _ nodes).congr fun _ => decide_eq_true_iff

/-- A bucket has the places of the terms with its key. -/
theorem lists_of_mem_terms {entry : TermKey × List Nat} (h : entry ∈ (ofNodes nodes).terms) :
    Lists nodes (fun node => node.termKey? = some entry.1) entry.2 :=
  (mem_terms_iff.1 h).2 ▸ lists_termPlaces entry.1 nodes

theorem mem_bucket_iff {entry : TermKey × List Nat} (hentry : entry ∈ (ofNodes nodes).terms)
    (hnode : nodes[i]? = some node) : i ∈ entry.2 ↔ node.termKey? = some entry.1 := by
  simp [(lists_of_mem_terms hentry).mem_iff, hnode]

/-- A term is in the bucket of its key, and in no other. -/
theorem eq_bucket_iff (hnode : nodes[i]? = some node) (hkey : node.termKey? = some key)
    {entry : TermKey × List Nat} : entry ∈ (ofNodes nodes).terms ∧ i ∈ entry.2 ↔
      entry = (key, (ofNodes nodes).termPlaces key) := by
  constructor
  · rintro ⟨hentry, hi⟩
    have hkey' := (mem_bucket_iff hentry hnode).1 hi
    obtain rfl : key = entry.1 := Option.some.inj (hkey.symm.trans hkey')
    exact Prod.ext rfl (mem_terms_iff.1 hentry).2.symm
  · rintro rfl
    have hkeys : key ∈ (ofNodes nodes).terms.map Prod.fst :=
      ((firstOccurrences_keys nodes).mem_iff key).2
        (List.mem_filterMap.2 ⟨node, List.mem_of_getElem? hnode, hkey⟩)
    have hentry : (key, (ofNodes nodes).termPlaces key) ∈ (ofNodes nodes).terms :=
      mem_terms_iff.2 ⟨hkeys, rfl⟩
    exact ⟨hentry, (mem_bucket_iff hentry hnode).2 hkey⟩

/-- Two groups share a bucket if they have the same key.  It depends on the key alone whether a
group is collected. -/
theorem share_bucket_iff {j : Nat} {g g' : Group} (hnode : nodes[i]? = some g.toNode)
    (hnode' : nodes[j]? = some g'.toNode) :
    (∃ entry ∈ (ofNodes nodes).terms, i ∈ entry.2 ∧ j ∈ entry.2) ↔
      (g.letter ≠ none ∨ g.power = []) ∧ g.key = g'.key := by
  constructor
  · rintro ⟨entry, hentry, hi, hj⟩
    obtain ⟨haddable, hkey⟩ := Node.termKey?_toNode.1 ((mem_bucket_iff hentry hnode).1 hi)
    obtain ⟨-, hkey'⟩ := Node.termKey?_toNode.1 ((mem_bucket_iff hentry hnode').1 hj)
    exact ⟨haddable, hkey.trans hkey'.symm⟩
  · rintro ⟨haddable, hkey⟩
    obtain ⟨hletter, hpower⟩ := TermKey.mk.inj hkey
    have h := Node.termKey?_toNode.2 ⟨haddable, rfl⟩
    have h' := Node.termKey?_toNode.2 ⟨hletter ▸ hpower ▸ haddable, hkey.symm⟩
    obtain ⟨hentry, hi⟩ := (eq_bucket_iff hnode h).2 rfl
    exact ⟨_, hentry, hi, ((eq_bucket_iff hnode' h').2 rfl).2⟩

/-! ## The index -/

/-- An index that is exact.  Everything is listed where it stands, nothing else is listed, and every
list ascends. -/
structure IsExact (p : Positions) (nodes : List Node) : Prop where
  parentheses : Lists nodes (fun node => ∃ body power negative, node = .paren body power negative)
    p.parentheses
  fractions : Lists nodes (fun node => ∃ top bottom, node = .fraction top bottom) p.fractions
  operator : ∀ op, Lists nodes (fun node => node = .operator op) (p.operator op)
  mem_relations : ∀ r i, (r, i) ∈ p.relations ↔ nodes[i]? = some (.relation r)
  relations_ascending : p.relations.Pairwise fun entry entry' => entry.2 < entry'.2
  powers : Lists nodes (fun node => ∃ power ≠ [],
    (∃ letter number, node = .group letter number power) ∨
      ∃ body negative, node = .paren body power negative) p.powers
  /-- A bucket has the groups with its key that have a letter or no power. -/
  bucket : ∀ entry ∈ p.terms, Lists nodes (fun node => ∃ g : Group, node = g.toNode ∧
    (g.letter ≠ none ∨ g.power = []) ∧ g.key = entry.1) entry.2
  /-- Each of these groups is in one bucket, and in one alone. -/
  bucket_unique : ∀ i (g : Group), nodes[i]? = some g.toNode → g.letter ≠ none ∨ g.power = [] →
    ∃! entry, entry ∈ p.terms ∧ i ∈ entry.2
  /-- Two groups share a bucket if they have the same key; a power of a number is in none. -/
  bucket_shared : ∀ i j (g g' : Group), nodes[i]? = some g.toNode → nodes[j]? = some g'.toNode →
    ((∃ entry ∈ p.terms, i ∈ entry.2 ∧ j ∈ entry.2) ↔
      (g.letter ≠ none ∨ g.power = []) ∧ g.key = g'.key)
  /-- The buckets have different keys, in the order in which groups with these keys occur first. -/
  keys : FirstOccurrences (nodes.filterMap Node.termKey?) (p.terms.map Prod.fst)
  termPlaces : ∀ key, Lists nodes (fun node => ∃ g : Group, node = g.toNode ∧
    (g.letter ≠ none ∨ g.power = []) ∧ g.key = key) (p.termPlaces key)
  multiplicationsAndDivisions : Lists nodes
    (fun node => node = .operator .multiply ∨ node = .operator .divide)
    p.multiplicationsAndDivisions
  additionsAndSubtractions : Lists nodes
    (fun node => node = .operator .add ∨ node = .operator .subtract) p.additionsAndSubtractions

/-- The index of every sequence is exact. -/
theorem ofNodes_isExact (nodes : List Node) : (ofNodes nodes).IsExact nodes where
  parentheses := (lists_places Node.isParen nodes).congr fun node => by
    cases node <;> simp [Node.isParen]
  fractions := (lists_places Node.isFraction nodes).congr fun node => by
    cases node <;> simp [Node.isFraction]
  operator := fun op => lists_operator op nodes
  mem_relations := fun _ _ => Positions.mem_relations
  relations_ascending := pairwise_relations nodes
  powers := (lists_places Node.isPowered nodes).congr fun node => by
    cases node <;> simp [Node.isPowered]
  bucket := fun entry h => (lists_of_mem_terms h).congr fun _ => Node.termKey?_eq_some
  bucket_unique := fun i g hnode haddable => by
    have hkey := Node.termKey?_toNode.2 ⟨haddable, rfl⟩
    exact ⟨_, (eq_bucket_iff hnode hkey).2 rfl, fun _ h => (eq_bucket_iff hnode hkey).1 h⟩
  bucket_shared := fun _ _ _ _ hnode hnode' => share_bucket_iff hnode hnode'
  keys := firstOccurrences_keys nodes
  termPlaces := fun key => (lists_termPlaces key nodes).congr fun _ => Node.termKey?_eq_some
  multiplicationsAndDivisions := lists_merged (by decide) nodes
  additionsAndSubtractions := lists_merged (by decide) nodes

/-- In `2^2 * x + 3x / 2^2 - 5` the two powers have the same key, and are in no bucket. -/
example : ofNodes [.group none (Number.ofNat 2) [Node.constant 2], .operator .multiply,
    .group (some 'x') (Number.ofNat 1) [], .operator .add, .group (some 'x') (Number.ofNat 3) [],
    .operator .divide, .group none (Number.ofNat 2) [Node.constant 2], .operator .subtract,
    .group none (Number.ofNat 5) []] =
    { parentheses := [], powers := [0, 6], fractions := [],
      operators := [(.multiply, 1), (.add, 3), (.divide, 5), (.subtract, 7)], relations := [],
      terms := [(⟨some 'x', []⟩, [2, 4]), (⟨none, []⟩, [8])] } := by
  decide +kernel

/-! ## Uses -/

/-- The index knows all operators, so a product is recognised by it. -/
theorem onlyMultiplication_iff : (ofNodes nodes).onlyMultiplication = true ↔
    ∀ op, .operator op ∈ nodes → op = .multiply := by
  simp only [onlyMultiplication, List.all_eq_true, decide_eq_true_iff, Prod.forall, mem_operators,
    List.mem_iff_getElem? (l := nodes), forall_exists_index]

/-- Behind another node everything is entered one place later. -/
theorem filterMap_zipIdx_succ {α : Type} {entry : Node × Nat → Option α} (later : α → α)
    (hlater : ∀ node i, entry (node, i + 1) = (entry (node, i)).map later) (nodes : List Node) :
    (nodes.zipIdx 1).filterMap entry = (nodes.zipIdx.filterMap entry).map later := by
  rw [List.zipIdx_succ, List.filterMap_map, List.map_filterMap]
  exact List.filterMap_congr fun (node, i) _ => hlater node i

theorem relations_cons (node : Node) (rest : List Node) : (ofNodes (node :: rest)).relations =
    (match node with | .relation r => [(r, 0)] | _ => []) ++
      (ofNodes rest).relations.map fun entry => (entry.1, entry.2 + 1) := by
  simp only [ofNodes, List.zipIdx_cons, List.filterMap_cons]
  rw [filterMap_zipIdx_succ fun entry => (entry.1, entry.2 + 1)]
  · cases node <;> rfl
  · intro other i
    cases other <;> rfl

end Positions

/-- A sequence is split at the first place among those of its relations. -/
theorem Sequence.split?_eq_relations (nodes : List Node) : Sequence.split? nodes =
    (Positions.ofNodes nodes).relations.head?.map fun (r, i) =>
      (nodes.take i, r, nodes.drop (i + 1)) := by
  induction nodes with
  | nil => rfl
  | cons node rest ih =>
    rw [Positions.relations_cons]
    cases node with
    | relation r => simp [Sequence.split?]
    | _ =>
      simp only [Sequence.split?, ih, List.nil_append, List.head?_map, Option.map_map]
      rfl

end OneUnknown
