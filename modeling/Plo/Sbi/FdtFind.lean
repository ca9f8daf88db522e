import Plo.Lib.Strings
import Plo.Sbi.FdtTree

/-!
The search for nodes by their names, and the number of CPUs. The end of a node is seen only by
the depth of the node behind it.
-/
namespace Plo.Sbi
open Lib

def FDT_ENOTFOUND : Int := -5

section
variable (fdt : Fdt)

/-- `fdt_getNodeName`: an address, or NULL. -/
def fdtGetNodeName (offset : Int) : Nat :=
  let pos := fdt.dtStruct + offset.toNat
  if fdt32ToCpu fdt pos ≠ FDT_BEGIN_NODE then 0 else pos + 4

/-- The comparison of `sbi_strncmp` with the name of a node. -/
def fdtNameStarts (targetName : List UInt8) (targetNameLen : Nat) (offset : Int) : Bool :=
  strncmp (constant targetName) (fun k => fdt.mem (fdtGetNodeName fdt offset + k)) targetNameLen = 0

def fdtFindNodeByName (targetName : List UInt8) (targetNameLen : Nat) (targetDepth : Int) :
    Nat → Int → Int → Option (Int × Int)
  | 0, _, _ => none
  | fuel + 1, offset, depth =>
    (fdtNextNode fdt offset depth).bind fun r =>
      if r.1 < 0 then some r
      else if r.2 = targetDepth ∧ fdtNameStarts fdt targetName targetNameLen r.1 then some r
      else fdtFindNodeByName targetName targetNameLen targetDepth fuel r.1 r.2

def fdtFindInCurrentNode (targetName : List UInt8) (targetNameLen : Nat) (targetDepth : Int) :
    Nat → Int → Int → Option (Int × Int)
  | 0, _, _ => none
  | fuel + 1, offset, depth =>
    (fdtNextNode fdt offset depth).bind fun r =>
      if r.1 < 0 then some r
      else if r.2 = targetDepth ∧ fdtNameStarts fdt targetName targetNameLen r.1 then some r
      else if r.2 ≥ targetDepth then
        fdtFindInCurrentNode targetName targetNameLen targetDepth fuel r.1 r.2
      else some (FDT_ENOTFOUND, r.2)

/-- The loop of `fdt_parseCpus`. -/
def fdtParseCpusLoop : Nat → Int → Int → Int → Option Int
  | 0, _, _, _ => none
  | fuel + 1, offset, depth, cpus =>
    (fdtFindInCurrentNode fdt "cpu@".toUTF8.toList 4 2 fdt.sizeDtStruct.toNat offset depth).bind
      fun r =>
        if r.1 ≥ 0 then fdtParseCpusLoop fuel r.1 r.2 (cpus + 1)
        else if r.1 = FDT_ENOTFOUND then some cpus
        else some r.1

def fdtParseCpus : Option Int :=
  (fdtFindNodeByName fdt "cpus".toUTF8.toList 4 1 fdt.sizeDtStruct.toNat 0 (-1)).bind fun r =>
    if r.1 < 0 then some r.1 else fdtParseCpusLoop fdt fdt.sizeDtStruct.toNat r.1 r.2 0

end

/-- The children among the items, with their names. -/
def Items.children : Items → List (NodeName × Items)
  | .done => []
  | .nop rest => rest.children
  | .prop _ _ rest => rest.children
  | .node name items rest => (name, items) :: rest.children

/-- The first child whose name is one of these, and what stands behind it. -/
def Items.findChild (p : NodeName → Bool) : Items → Option (Items × Items)
  | .done => none
  | .nop rest => rest.findChild p
  | .prop _ _ rest => rest.findChild p
  | .node name items rest => if p name then some (items, rest) else rest.findChild p

def NodeName.StartsWith (pre : List UInt8) (name : NodeName) : Bool := pre <+: name.bytes

/-- How many children of a node have a name that starts with `cpu@`. -/
def Items.cpuCount (items : Items) : Nat :=
  items.children.countP fun c => c.1.StartsWith "cpu@".toUTF8.toList

/-- The node `/cpus`. -/
def Tree.cpus (tree : Tree) : Option Items :=
  (tree.items.findChild fun name => name.bytes = "cpus".toUTF8.toList).map Prod.fst

/-- A node, in the order in which a walk comes to it. -/
structure Listed where
  ofs : Nat
  depth : Int
  name : NodeName

def Items.listing : Items → Nat → Int → List Listed
  | .done, _, _ => []
  | .nop rest, ofs, depth => rest.listing (ofs + 4) depth
  | .prop nameoff data rest, ofs, depth =>
    rest.listing (ofs + (propBytes nameoff data).length) depth
  | .node name items rest, ofs, depth =>
    ⟨ofs, depth, name⟩ :: (items.listing (ofs + (nodeHead name).length) (depth + 1) ++
      rest.listing (ofs + (nodeHead name).length + items.bytes.length + 4) depth)

theorem Items.listing_node (name : NodeName) (items rest : Items) (ofs : Nat) (depth : Int) :
    (Items.node name items rest).listing ofs depth =
      ⟨ofs, depth, name⟩ :: (items.listing (ofs + (nodeHead name).length) (depth + 1) ++
        rest.listing (ofs + (nodeHead name).length + items.bytes.length + 4) depth) := rfl

theorem Items.nodes_eq (items : Items) (ofs : Nat) (depth : Int) :
    items.nodes ofs depth = (items.listing ofs depth).map fun n => ((n.ofs : Int), n.depth) := by
  induction items generalizing ofs depth with
  | done => rfl
  | nop rest ih => exact ih _ _
  | prop nameoff data rest ih => exact ih _ _
  | node name items rest ih ih' =>
      rw [Items.nodes, Items.listing_node, List.map_cons, List.map_append, ih, ih']

section
variable {fdt : Fdt}

/-- The nodes of the list are in memory. -/
def Fdt.Named (fdt : Fdt) (ns : List Listed) : Prop :=
  ∀ n ∈ ns, fdt.At (fdt.dtStruct + n.ofs) (nodeHead n.name)

theorem Fdt.At.listing {items : Items} {ofs : Nat} (depth : Int)
    (h : fdt.At (fdt.dtStruct + ofs) items.bytes) : fdt.Named (items.listing ofs depth) := by
  induction items generalizing ofs depth with
  | done => exact nofun
  | nop rest ih =>
      have hrest := h.append.2
      rw [length_wordBytes, Nat.add_assoc] at hrest
      exact ih depth hrest
  | prop nameoff data rest ih =>
      have hrest := h.append.2
      rw [Nat.add_assoc] at hrest
      exact ih depth hrest
  | node name items rest ih ih' =>
      obtain ⟨hhead, hitems⟩ := h.append
      obtain ⟨hitems, hend⟩ := hitems.append
      have hrest := hend.append.2
      rw [length_wordBytes] at hrest
      simp only [Nat.add_assoc] at hitems hrest
      intro n hn
      rcases List.mem_cons.mp hn with rfl | hn
      · exact hhead
      · rcases List.mem_append.mp hn with hn | hn
        · exact ih (depth + 1) hitems n hn
        · refine ih' depth ?_ n hn
          simp only [Nat.add_assoc]
          exact hrest

/-- A name and the byte that ends it are a string. -/
theorem Fdt.At.holdsString {pos : Nat} {name : List UInt8} (h : fdt.At pos (name ++ [0])) :
    HoldsString (fun k => fdt.mem (pos + k)) name := by
  intro k hk
  rw [Fdt.At, List.length_append, List.length_singleton] at h
  have hbyte : (slice fdt.mem pos (name.length + 1))[k]? = (name ++ [0])[k]? := congrArg (·[k]?) h
  rw [slice, List.getElem?_map, List.getElem?_range (by omega), Option.map_some] at hbyte
  rw [constant, List.getD_eq_getElem?_getD]
  by_cases hlt : k < name.length
  · rw [List.getElem?_append_left hlt] at hbyte
    rw [← hbyte, Option.getD_some]
  · have hk' : k = name.length := by omega
    subst hk'
    rw [List.getElem?_append_right (Nat.le_refl _), Nat.sub_self] at hbyte
    rw [List.getElem?_eq_none (Nat.le_refl _), Option.getD_none]
    exact Option.some.inj hbyte

/-- The name of a listed node is compared. -/
theorem fdtNameStarts_eq {n : Listed} (h : fdt.At (fdt.dtStruct + n.ofs) (nodeHead n.name))
    {pre : List UInt8} (hpre : 0 ∉ pre) :
    fdtNameStarts fdt pre pre.length n.ofs = n.name.StartsWith pre := by
  obtain ⟨htoken, hname⟩ := h.append
  rw [length_wordBytes] at hname
  have haddr : fdtGetNodeName fdt n.ofs = fdt.dtStruct + n.ofs + 4 := by
    simp only [fdtGetNodeName, Int.toNat_natCast, htoken.word, ne_eq, not_true_eq_false, if_false]
  rw [fdtNameStarts, NodeName.StartsWith, haddr, decide_eq_decide]
  exact strncmp_prefix hname.append.1.holdsString hpre

end

end Plo.Sbi
