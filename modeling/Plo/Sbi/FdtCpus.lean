import Plo.Sbi.FdtFind

/-!
What `fdt_parseCpus` counts in a tree that is well-formed: the children of the first node of
depth 1 whose name starts with `cpus`. Without another node of this depth behind it, the end of
the block comes first.
-/
namespace Plo.Sbi
open Lib

section
variable {fdt : Fdt}

/-- The calls from a node on find the nodes of the list one by one, and then the end. -/
def Fdt.Walks (fdt : Fdt) : Int → Int → List Listed → Prop
  | offset, depth, [] => ∃ depth', fdtNextNode fdt offset depth = some (FDT_EEND, depth')
  | offset, depth, n :: ns =>
    fdtNextNode fdt offset depth = some ((n.ofs : Int), n.depth) ∧ fdt.Walks n.ofs n.depth ns

theorem walks_of_follow {ns : List Listed} {offset depth : Int} {n : Nat}
    (h : (fdtNextNode fdt offset depth).bind (follow fdt n) =
      some (ns.map (fun n => ((n.ofs : Int), n.depth)), FDT_EEND)) :
    fdt.Walks offset depth ns := by
  induction ns generalizing offset depth n with
  | nil =>
      obtain ⟨r, hr, hfollow⟩ := Option.bind_eq_some_iff.mp h
      rw [follow] at hfollow
      split at hfollow
      · have hend : r.1 = FDT_EEND := congrArg Prod.snd (Option.some.inj hfollow)
        refine ⟨r.2, hr.trans ?_⟩
        rw [← hend]
      · obtain ⟨l, -, hl⟩ := Option.map_eq_some_iff.mp hfollow
        cases hl
  | cons m ns ih =>
      obtain ⟨r, hr, hfollow⟩ := Option.bind_eq_some_iff.mp h
      rw [follow] at hfollow
      split at hfollow
      · cases hfollow
      · obtain ⟨l, hl, heq⟩ := Option.map_eq_some_iff.mp hfollow
        obtain ⟨l, e⟩ := l
        cases heq
        refine ⟨hr, ?_⟩
        cases n with
        | zero => cases hl
        | succ n => exact ih hl

/-- A walk from the root finds all nodes, which are in memory. -/
theorem Fdt.Holds.walks {tree : Tree} (h : fdt.Holds tree) :
    fdt.Walks 0 (-1) (tree.items.listing (nodeHead tree.name).length 1) ∧
      fdt.Named (tree.items.listing (nodeHead tree.name).length 1) := by
  have hwalk := fdtNextNode_root h (Nat.le_refl _)
  rw [Tree.nodes, Items.nodes_eq] at hwalk
  refine ⟨walks_of_follow hwalk, ?_⟩
  have hmem : fdt.At fdt.dtStruct (nodeHead tree.name ++
      (tree.items.bytes ++ (wordBytes FDT_END_NODE ++ restBytes tree.nops []))) := h.mem
  exact (hmem.append.2.append.1).listing 1

end

section
variable {fdt : Fdt} {pre : List UInt8} {targetDepth : Int}

/-- A node of the list that the search looks for. -/
def Listed.Match (n : Listed) (pre : List UInt8) (targetDepth : Int) : Bool :=
  n.depth = targetDepth && n.name.StartsWith pre

theorem Listed.not_match_of_ne {n : Listed} (h : n.depth ≠ targetDepth) :
    ¬n.Match pre targetDepth = true := by
  rw [Listed.Match, Bool.and_eq_true, decide_eq_true_iff]
  exact fun hmatch => h hmatch.1

theorem Fdt.Named.cons {n : Listed} {ns : List Listed} (h : fdt.Named (n :: ns)) :
    fdt.At (fdt.dtStruct + n.ofs) (nodeHead n.name) ∧ fdt.Named ns :=
  ⟨h n List.mem_cons_self, fun m hm => h m (List.mem_cons_of_mem n hm)⟩

theorem match_iff {n : Listed} (h : fdt.At (fdt.dtStruct + n.ofs) (nodeHead n.name))
    (hpre : 0 ∉ pre) : (n.depth = targetDepth ∧ fdtNameStarts fdt pre pre.length n.ofs = true) ↔
      n.Match pre targetDepth = true := by
  rw [fdtNameStarts_eq h hpre, Listed.Match, Bool.and_eq_true, decide_eq_true_iff]

/-- The search for a node in what is left of the walk. -/
def searchNode (pre : List UInt8) (targetDepth : Int) : List Listed → Option (Listed × List Listed)
  | [] => none
  | n :: ns => if n.Match pre targetDepth then some (n, ns) else searchNode pre targetDepth ns

theorem searchNode_cons (n : Listed) (ns : List Listed) : searchNode pre targetDepth (n :: ns) =
    if n.Match pre targetDepth then some (n, ns) else searchNode pre targetDepth ns := rfl

theorem fdtFindNodeByName_walks {ns : List Listed} {fuel : Nat} {offset depth : Int}
    (hwalks : fdt.Walks offset depth ns) (hnamed : fdt.Named ns) (hpre : 0 ∉ pre)
    (hfuel : ns.length < fuel) :
    match searchNode pre targetDepth ns with
    | none => ∃ depth', fdtFindNodeByName fdt pre pre.length targetDepth fuel offset depth =
        some (FDT_EEND, depth')
    | some (n, ns') => fdtFindNodeByName fdt pre pre.length targetDepth fuel offset depth =
        some ((n.ofs : Int), n.depth) ∧ fdt.Walks n.ofs n.depth ns' ∧ fdt.Named ns' ∧
          ns'.length < ns.length := by
  induction ns generalizing fuel offset depth with
  | nil =>
      obtain ⟨fuel, rfl⟩ : ∃ m, fuel = m + 1 := ⟨fuel - 1, by omega⟩
      obtain ⟨depth', hcall⟩ := hwalks
      refine ⟨depth', ?_⟩
      rw [fdtFindNodeByName, hcall]
      rfl
  | cons n ns ih =>
      obtain ⟨fuel, rfl⟩ : ∃ m, fuel = m + 1 := ⟨fuel - 1, by omega⟩
      obtain ⟨hcall, hrest⟩ := hwalks
      obtain ⟨hhead, htail⟩ := hnamed.cons
      have hofs : ¬(n.ofs : Int) < 0 := by omega
      rw [List.length_cons] at hfuel
      rw [searchNode_cons, fdtFindNodeByName, hcall, Option.bind_some, if_neg hofs]
      by_cases hmatch : n.Match pre targetDepth = true
      · rw [if_pos hmatch, if_pos ((match_iff hhead hpre).mpr hmatch)]
        exact ⟨rfl, hrest, htail, Nat.lt_succ_self _⟩
      · rw [if_neg hmatch, if_neg fun h => hmatch ((match_iff hhead hpre).mp h)]
        have hfind := ih hrest htail (by omega : ns.length < fuel)
        revert hfind
        match searchNode pre targetDepth ns with
        | none => exact id
        | some (m, ns') => exact fun h => ⟨h.1, h.2.1, h.2.2.1, Nat.lt_succ_of_lt h.2.2.2⟩

/-- The search inside a node ends at the first node that is not deep enough. -/
def searchInside (pre : List UInt8) (targetDepth : Int) :
    List Listed → Option (Option (Listed × List Listed))
  | [] => none
  | n :: ns =>
    if n.Match pre targetDepth then some (some (n, ns))
    else if n.depth ≥ targetDepth then searchInside pre targetDepth ns
    else some none

theorem fdtFindInCurrentNode_walks {ns : List Listed} {fuel : Nat} {offset depth : Int}
    (hwalks : fdt.Walks offset depth ns) (hnamed : fdt.Named ns) (hpre : 0 ∉ pre)
    (hfuel : ns.length < fuel) :
    match searchInside pre targetDepth ns with
    | none => ∃ depth', fdtFindInCurrentNode fdt pre pre.length targetDepth fuel offset depth =
        some (FDT_EEND, depth')
    | some none => ∃ depth', fdtFindInCurrentNode fdt pre pre.length targetDepth fuel offset depth =
        some (FDT_ENOTFOUND, depth')
    | some (some (n, ns')) =>
        fdtFindInCurrentNode fdt pre pre.length targetDepth fuel offset depth =
          some ((n.ofs : Int), n.depth) ∧ fdt.Walks n.ofs n.depth ns' ∧ fdt.Named ns' ∧
            ns'.length < ns.length := by
  induction ns generalizing fuel offset depth with
  | nil =>
      obtain ⟨fuel, rfl⟩ : ∃ m, fuel = m + 1 := ⟨fuel - 1, by omega⟩
      obtain ⟨depth', hcall⟩ := hwalks
      refine ⟨depth', ?_⟩
      rw [fdtFindInCurrentNode, hcall]
      rfl
  | cons n ns ih =>
      obtain ⟨fuel, rfl⟩ : ∃ m, fuel = m + 1 := ⟨fuel - 1, by omega⟩
      obtain ⟨hcall, hrest⟩ := hwalks
      obtain ⟨hhead, htail⟩ := hnamed.cons
      have hofs : ¬(n.ofs : Int) < 0 := by omega
      rw [List.length_cons] at hfuel
      rw [searchInside, fdtFindInCurrentNode, hcall, Option.bind_some, if_neg hofs]
      by_cases hmatch : n.Match pre targetDepth = true
      · rw [if_pos hmatch, if_pos ((match_iff hhead hpre).mpr hmatch)]
        exact ⟨rfl, hrest, htail, Nat.lt_succ_self _⟩
      · rw [if_neg hmatch, if_neg fun h => hmatch ((match_iff hhead hpre).mp h)]
        by_cases hdeep : n.depth ≥ targetDepth
        · rw [if_pos hdeep, if_pos hdeep]
          have hinside := ih hrest htail (by omega : ns.length < fuel)
          revert hinside
          match searchInside pre targetDepth ns with
          | none => exact id
          | some none => exact id
          | some (some (m, ns')) =>
              exact fun h => ⟨h.1, h.2.1, h.2.2.1, Nat.lt_succ_of_lt h.2.2.2⟩
        · rw [if_neg hdeep, if_neg hdeep]
          exact ⟨n.depth, rfl⟩

end

/-- The names counted before a node that is not deep enough, or `none` at the end of the block. -/
def countCpus : List Listed → Option Nat
  | [] => none
  | n :: ns =>
    if n.Match "cpu@".toUTF8.toList 2 then (countCpus ns).map (· + 1)
    else if n.depth ≥ 2 then countCpus ns
    else some 0

theorem countCpus_cons (n : Listed) (ns : List Listed) : countCpus (n :: ns) =
    if n.Match "cpu@".toUTF8.toList 2 then (countCpus ns).map (· + 1)
    else if n.depth ≥ 2 then countCpus ns else some 0 := rfl

/-- A search inside goes on with the rest of the count. -/
theorem countCpus_eq (ns : List Listed) :
    countCpus ns =
      match searchInside "cpu@".toUTF8.toList 2 ns with
      | none => none
      | some none => some 0
      | some (some (_, ns')) => (countCpus ns').map (· + 1) := by
  induction ns with
  | nil => rfl
  | cons n ns ih =>
      rw [countCpus_cons, searchInside]
      by_cases hmatch : n.Match "cpu@".toUTF8.toList 2 = true
      · rw [if_pos hmatch, if_pos hmatch]
      · rw [if_neg hmatch, if_neg hmatch]
        by_cases hdeep : n.depth ≥ 2
        · rw [if_pos hdeep, if_pos hdeep]
          exact ih
        · rw [if_neg hdeep, if_neg hdeep]

theorem cpuAt_bytes : "cpu@".toUTF8.toList = [99, 112, 117, 64] := by decide +kernel

theorem cpus_bytes : "cpus".toUTF8.toList = [99, 112, 117, 115] := by decide +kernel

theorem zero_notMem_cpus : 0 ∉ "cpus".toUTF8.toList := by
  rw [cpus_bytes]
  decide

theorem length_cpus : "cpus".toUTF8.toList.length = 4 := congrArg List.length cpus_bytes

/-- What the loop returns for a count. -/
def cpusResult (cpus : Int) : Option Nat → Int
  | none => FDT_EEND
  | some n => cpus + n

theorem fdtParseCpusLoop_walks {fdt : Fdt} {ns : List Listed} {fuel : Nat}
    {offset depth cpus : Int} (hwalks : fdt.Walks offset depth ns) (hnamed : fdt.Named ns)
    (hfuel : ns.length < fuel) (hsize : ns.length < fdt.sizeDtStruct.toNat) :
    fdtParseCpusLoop fdt fuel offset depth cpus = some (cpusResult cpus (countCpus ns)) := by
  induction hlen : ns.length using Nat.strong_induction_on generalizing ns fuel offset depth cpus with
  | _ len ih =>
      subst hlen
      obtain ⟨fuel, rfl⟩ : ∃ m, fuel = m + 1 := ⟨fuel - 1, by omega⟩
      have hpre : 0 ∉ "cpu@".toUTF8.toList := by
        rw [cpuAt_bytes]
        decide
      have hinside := @fdtFindInCurrentNode_walks fdt _ 2 _ _ _ _ hwalks hnamed hpre hsize
      have hlen : "cpu@".toUTF8.toList.length = 4 := congrArg List.length cpuAt_bytes
      rw [hlen] at hinside
      rw [countCpus_eq, fdtParseCpusLoop]
      revert hinside
      match searchInside "cpu@".toUTF8.toList 2 ns with
      | none =>
          rintro ⟨depth', hcall⟩
          rw [hcall]
          rfl
      | some none =>
          rintro ⟨depth', hcall⟩
          rw [hcall]
          exact congrArg some (Int.add_zero cpus).symm
      | some (some (n, ns')) =>
          rintro ⟨hcall, hrest, htail, hlt⟩
          have hofs : (n.ofs : Int) ≥ 0 := by omega
          have hcount := @ih ns'.length hlt ns' fuel n.ofs n.depth (cpus + 1) hrest htail
            (by omega) (by omega) rfl
          rw [hcall, Option.bind_some, if_pos hofs, hcount]
          dsimp only
          cases countCpus ns' with
          | none => rfl
          | some k =>
              simp only [cpusResult, Option.map_some, Nat.cast_add, Nat.cast_one]
              congr 1
              omega

section
variable {pre : List UInt8} {targetDepth : Int}

theorem Items.listing_depth (items : Items) (ofs : Nat) (depth : Int) :
    ∀ n ∈ items.listing ofs depth, depth ≤ n.depth := by
  induction items generalizing ofs depth with
  | done => exact nofun
  | nop rest ih => exact ih _ _
  | prop nameoff data rest ih => exact ih _ _
  | node name items rest ih ih' =>
      intro n hn
      rcases List.mem_cons.mp hn with rfl | hn
      · exact Int.le_refl _
      · rcases List.mem_append.mp hn with hn | hn
        · have hdepth := ih _ _ n hn
          omega
        · exact ih' _ _ n hn

theorem Items.listing_length (items : Items) (ofs : Nat) (depth : Int) :
    (items.listing ofs depth).length ≤ items.bytes.length := by
  induction items generalizing ofs depth with
  | done => exact Nat.le_refl 0
  | nop rest ih =>
      rw [Items.bytes_nop, List.length_append]
      exact Nat.le_add_left_of_le (ih _ _)
  | prop nameoff data rest ih =>
      rw [Items.bytes_prop, List.length_append]
      exact Nat.le_add_left_of_le (ih _ _)
  | node name items rest ih ih' =>
      have hhead := length_nodeHead name
      have hitems := ih (ofs + (nodeHead name).length) (depth + 1)
      have hrest := ih' (ofs + (nodeHead name).length + items.bytes.length + 4) depth
      rw [Items.listing_node, Items.bytes_node]
      simp only [List.length_cons, List.length_append, length_wordBytes]
      omega

theorem searchNode_deeper {ns ms : List Listed} (h : ∀ n ∈ ns, targetDepth < n.depth) :
    searchNode pre targetDepth (ns ++ ms) = searchNode pre targetDepth ms := by
  induction ns with
  | nil => rfl
  | cons n ns ih =>
      have hdepth := h n List.mem_cons_self
      rw [List.cons_append, searchNode_cons, if_neg (Listed.not_match_of_ne (by omega))]
      exact ih fun m hm => h m (List.mem_cons_of_mem n hm)

/-- The search on the level of the root passes over all nodes below it. -/
theorem searchNode_listing (items : Items) (ofs : Nat) :
    match items.findChild (NodeName.StartsWith pre) with
    | none => searchNode pre 1 (items.listing ofs 1) = none
    | some (first, rest) => ∃ n ofs' ofs'', searchNode pre 1 (items.listing ofs 1) =
        some (n, first.listing ofs' 2 ++ rest.listing ofs'' 1) := by
  induction items generalizing ofs with
  | done => rfl
  | nop rest ih => exact ih _
  | prop nameoff data rest ih => exact ih _
  | node name items rest _ ih' =>
      rw [Items.findChild, Items.listing_node, searchNode_cons]
      by_cases hname : name.StartsWith pre = true
      · rw [if_pos hname, if_pos (by rw [Listed.Match, hname]; rfl)]
        exact ⟨_, _, _, rfl⟩
      · have hmatch : ¬Listed.Match ⟨ofs, 1, name⟩ pre 1 = true := by
          rw [Listed.Match, Bool.and_eq_true]
          exact fun h => hname h.2
        have hdeeper : ∀ n ∈ items.listing (ofs + (nodeHead name).length) (1 + 1), 1 < n.depth :=
          fun n hn => Int.lt_of_lt_of_le (by decide) (items.listing_depth _ _ n hn)
        rw [if_neg hname, if_neg hmatch, searchNode_deeper hdeeper]
        exact ih' _

theorem countCpus_deeper {ns ms : List Listed} (h : ∀ n ∈ ns, 2 < n.depth) :
    countCpus (ns ++ ms) = countCpus ms := by
  induction ns with
  | nil => rfl
  | cons n ns ih =>
      have hdepth := h n List.mem_cons_self
      rw [List.cons_append, countCpus_cons, if_neg (Listed.not_match_of_ne (by omega)),
        if_pos (by omega)]
      exact ih fun m hm => h m (List.mem_cons_of_mem n hm)

/-- The children of a node of depth 1 are counted, whatever nodes they have below them. -/
theorem countCpus_children (items : Items) (ofs : Nat) (ns : List Listed) :
    countCpus (items.listing ofs 2 ++ ns) = (countCpus ns).map (· + items.cpuCount) := by
  induction items generalizing ofs with
  | done =>
      cases h : countCpus ns with
      | none => exact h
      | some n => exact h
  | nop rest ih => exact ih _
  | prop nameoff data rest ih => exact ih _
  | node name items rest _ ih' =>
      have hdeeper : ∀ n ∈ items.listing (ofs + (nodeHead name).length) (2 + 1), 2 < n.depth :=
        fun n hn => Int.lt_of_lt_of_le (by decide) (items.listing_depth _ _ n hn)
      have hrest := ih' (ofs + (nodeHead name).length + items.bytes.length + 4)
      rw [Items.listing_node, List.cons_append, List.append_assoc, countCpus_cons,
        countCpus_deeper hdeeper, hrest, Items.cpuCount, Items.cpuCount, Items.children]
      have hmatch : Listed.Match ⟨ofs, 2, name⟩ "cpu@".toUTF8.toList 2 =
          name.StartsWith "cpu@".toUTF8.toList := rfl
      rw [hmatch]
      by_cases hname : name.StartsWith "cpu@".toUTF8.toList = true
      · rw [if_pos hname, List.countP_cons, if_pos hname, Option.map_map]
        rfl
      · rw [if_neg hname, if_pos (Int.le_refl 2), List.countP_cons, if_neg hname, Nat.add_zero]

/-- Another node of depth 1 ends the count. -/
theorem countCpus_next (rest : Items) (ofs : Nat) :
    countCpus (rest.listing ofs 1) = if rest.children = [] then none else some 0 := by
  induction rest generalizing ofs with
  | done => rfl
  | nop rest ih => exact ih _
  | prop nameoff data rest ih => exact ih _
  | node name items rest _ _ =>
      have hdepth : (1 : Int) ≠ 2 := by decide
      rw [Items.listing_node, countCpus_cons, if_neg (Listed.not_match_of_ne hdepth),
        if_neg (by decide : ¬(1 : Int) ≥ 2), Items.children, if_neg (List.cons_ne_nil _ _)]

end

section
variable {fdt : Fdt} {tree : Tree}

/-- The block has more bytes than nodes. -/
theorem Fdt.Holds.listing_lt (h : fdt.Holds tree) :
    (tree.items.listing (nodeHead tree.name).length 1).length < fdt.sizeDtStruct.toNat := by
  have hlisting := tree.items.listing_length (nodeHead tree.name).length 1
  have hhead := length_nodeHead tree.name
  rw [h.size, Tree.bytes, restBytes, List.length_append, List.length_append]
  omega

/-- The search finds no node. -/
theorem fdtParseCpus_missing (h : fdt.Holds tree)
    (hchild : tree.items.findChild (NodeName.StartsWith "cpus".toUTF8.toList) = none) :
    fdtParseCpus fdt = some FDT_EEND := by
  obtain ⟨hwalks, hnamed⟩ := h.walks
  have hsearch := @searchNode_listing "cpus".toUTF8.toList tree.items (nodeHead tree.name).length
  have hfind := @fdtFindNodeByName_walks fdt "cpus".toUTF8.toList 1 _ _ _ _ hwalks hnamed
    zero_notMem_cpus h.listing_lt
  rw [hchild] at hsearch
  rw [hsearch, length_cpus] at hfind
  obtain ⟨depth', hcall⟩ := hfind
  rw [fdtParseCpus, hcall]
  rfl

/-- The CPUs are counted in the node that is found, unless no node follows it. -/
theorem fdtParseCpus_found (h : fdt.Holds tree) {first rest : Items}
    (hchild : tree.items.findChild (NodeName.StartsWith "cpus".toUTF8.toList) =
      some (first, rest)) :
    fdtParseCpus fdt =
      if rest.children = [] then some FDT_EEND else some (first.cpuCount : Int) := by
  obtain ⟨hwalks, hnamed⟩ := h.walks
  have hsearch := @searchNode_listing "cpus".toUTF8.toList tree.items (nodeHead tree.name).length
  have hfind := @fdtFindNodeByName_walks fdt "cpus".toUTF8.toList 1 _ _ _ _ hwalks hnamed
    zero_notMem_cpus h.listing_lt
  rw [hchild] at hsearch
  obtain ⟨n, ofs', ofs'', hsearch⟩ := hsearch
  rw [hsearch, length_cpus] at hfind
  obtain ⟨hcall, hrest, htail, hlt⟩ := hfind
  have hofs : ¬(n.ofs : Int) < 0 := by omega
  have hshort : (first.listing ofs' 2 ++ rest.listing ofs'' 1).length < fdt.sizeDtStruct.toNat :=
    Nat.lt_trans hlt h.listing_lt
  rw [fdtParseCpus, hcall, Option.bind_some, if_neg hofs,
    fdtParseCpusLoop_walks hrest htail hshort hshort, countCpus_children, countCpus_next]
  by_cases hlast : rest.children = []
  · rw [if_pos hlast, if_pos hlast]
    rfl
  · rw [if_neg hlast, if_neg hlast]
    simp only [Option.map_some, cpusResult, Nat.zero_add, Int.zero_add]

/-- The result is the number of children of `/cpus` whose name starts with `cpu@` exactly if
the first node of its depth whose name starts with `cpus`, which is `/cpus` or stands before it,
is followed by another node of this depth and has as many of these children. -/
theorem fdtParseCpus_iff (h : fdt.Holds tree) {cpus : Items} (_hcpus : tree.cpus = some cpus) :
    fdtParseCpus fdt = some (cpus.cpuCount : Int) ↔
      ∃ first rest,
        tree.items.findChild (NodeName.StartsWith "cpus".toUTF8.toList) = some (first, rest) ∧
          rest.children ≠ [] ∧ first.cpuCount = cpus.cpuCount := by
  have hend (n : Nat) : some FDT_EEND ≠ some (n : Int) := by
    intro heq
    have hneg := Option.some.inj heq
    rw [FDT_EEND] at hneg
    omega
  cases hchild : tree.items.findChild (NodeName.StartsWith "cpus".toUTF8.toList) with
  | none =>
      rw [fdtParseCpus_missing h hchild]
      exact iff_of_false (hend _) nofun
  | some c =>
      obtain ⟨first, rest⟩ := c
      rw [fdtParseCpus_found h hchild]
      by_cases hlast : rest.children = []
      · rw [if_pos hlast]
        refine iff_of_false (hend _) ?_
        rintro ⟨_, _, ⟨⟩, hnext, -⟩
        exact hnext hlast
      · rw [if_neg hlast]
        constructor
        · intro heq
          exact ⟨first, rest, rfl, hlast, Int.ofNat_inj.mp (Option.some.inj heq)⟩
        · rintro ⟨_, _, ⟨⟩, -, heq⟩
          rw [heq]

end

def oneCpu : Items := .node (.ofString (.ofBuffer "cpu@0".toUTF8.toList)) .done .done

def memoryNode : Items := .node (.ofString (.ofBuffer "memory@0".toUTF8.toList)) .done .done

/-- A node `/cpus` with one CPU, and what stands behind it. -/
def cpusTree (rest : Items) : Tree where
  name := .ofString (.ofBuffer [])
  items := .node (.ofString (.ofBuffer "cpus".toUTF8.toList)) oneCpu rest
  nops := 0

def cpusFdt (rest : Items) : Fdt where
  mem := fun a => (cpusTree rest).bytes.getD (a - 4096) 0
  dtStruct := 4096
  sizeDtStruct := BitVec.ofNat 32 (cpusTree rest).bytes.length

theorem cpusTree_cpus (rest : Items) : (cpusTree rest).cpus = some oneCpu := by
  have hname : (decide ((NodeName.ofString (.ofBuffer "cpus".toUTF8.toList)).bytes =
      "cpus".toUTF8.toList)) = true := by
    rw [cpus_bytes]
    decide
  rw [Tree.cpus, cpusTree, Items.findChild, if_pos hname, Option.map_some]

/-- The count when a memory node follows. -/
theorem fdtParseCpus_iff_memory :
    fdtParseCpus (cpusFdt memoryNode) = some (oneCpu.cpuCount : Int) ↔
      ∃ first rest, (cpusTree memoryNode).items.findChild
          (NodeName.StartsWith "cpus".toUTF8.toList) = some (first, rest) ∧
        rest.children ≠ [] ∧ first.cpuCount = oneCpu.cpuCount :=
  @fdtParseCpus_iff (cpusFdt memoryNode) (cpusTree memoryNode)
    ⟨by decide, by decide +kernel, by decide +kernel, by decide +kernel⟩ oneCpu (cpusTree_cpus _)

/-- When nothing follows `/cpus`, the end of the block is taken for an error. -/
theorem fdtParseCpus_last :
    (cpusFdt .done).Holds (cpusTree .done) ∧ (cpusTree .done).cpus = some oneCpu ∧
      oneCpu.cpuCount = 1 ∧ fdtParseCpus (cpusFdt .done) = some FDT_EEND :=
  ⟨⟨by decide, by decide +kernel, by decide +kernel, by decide +kernel⟩, cpusTree_cpus _,
    by decide +kernel, by decide +kernel⟩

end Plo.Sbi
