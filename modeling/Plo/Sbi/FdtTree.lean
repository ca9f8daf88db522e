import Plo.Base.Window
import Plo.Lib.Types
import Plo.Sbi.Fdt

/-!
Flattened device trees, and the nodes a walk gives. The items of a node are its
properties, its children and NOP tokens between them; the structure block is the
root, followed by NOP tokens and the end token. A walk from the root goes through
all other nodes in the order of the block, with the depth of each.
-/
namespace Plo.Sbi

section Layout

/-- The name of a node, without the byte that ends it. -/
structure NodeName where
  bytes : List UInt8
  no_nul : 0 ∉ bytes

/-- What stands in a node, item by item. -/
inductive Items
  | done
  | nop (rest : Items)
  | prop (nameoff : BitVec 32) (data : List UInt8) (rest : Items)
  | node (name : NodeName) (items : Items) (rest : Items)

/-- A structure block: the root, from the offset 0 on, and the number of NOP tokens behind
it. -/
structure Tree where
  name : NodeName
  items : Items
  nops : Nat

def wordBytes (w : BitVec 32) : List UInt8 := (List.range 4).map (Endian.big.byte w)

/-- The zero bytes that fill `n` bytes up to a multiple of a word. -/
def padding (n : Nat) : List UInt8 := List.replicate ((4 - n % 4) % 4) 0

def nodeHead (name : NodeName) : List UInt8 :=
  wordBytes FDT_BEGIN_NODE ++ (name.bytes ++ [0] ++ padding (name.bytes.length + 1))

def propBytes (nameoff : BitVec 32) (data : List UInt8) : List UInt8 :=
  wordBytes FDT_PROP ++ (wordBytes (BitVec.ofNat 32 data.length) ++ (wordBytes nameoff ++
    (data ++ padding data.length)))

def Items.bytes : Items → List UInt8
  | .done => []
  | .nop rest => wordBytes FDT_NOP ++ rest.bytes
  | .prop nameoff data rest => propBytes nameoff data ++ rest.bytes
  | .node name items rest =>
    nodeHead name ++ (items.bytes ++ (wordBytes FDT_END_NODE ++ rest.bytes))

section
variable (nameoff : BitVec 32) (data : List UInt8) (name : NodeName) (items rest : Items)

theorem Items.bytes_nop : (Items.nop rest).bytes = wordBytes FDT_NOP ++ rest.bytes := rfl

theorem Items.bytes_prop :
    (Items.prop nameoff data rest).bytes = propBytes nameoff data ++ rest.bytes := rfl

theorem Items.bytes_node : (Items.node name items rest).bytes =
    nodeHead name ++ (items.bytes ++ (wordBytes FDT_END_NODE ++ rest.bytes)) := rfl

end

/-- The end of the block, after `n` NOP tokens. -/
def endBytes : Nat → List UInt8
  | 0 => wordBytes FDT_END
  | n + 1 => wordBytes FDT_NOP ++ endBytes n

/-- What is left of the block inside of nodes, the innermost first. -/
def restBytes (nops : Nat) : List Items → List UInt8
  | [] => endBytes nops
  | items :: levels => items.bytes ++ (wordBytes FDT_END_NODE ++ restBytes nops levels)

def Tree.bytes (tree : Tree) : List UInt8 := nodeHead tree.name ++ restBytes tree.nops [tree.items]

/-- The offsets and depths of the nodes among the items, each before its children; the
items start at `ofs`, and nodes among them have the depth `depth`. -/
def Items.nodes : Items → Nat → Int → List (Int × Int)
  | .done, _, _ => []
  | .nop rest, ofs, depth => rest.nodes (ofs + 4) depth
  | .prop nameoff data rest, ofs, depth =>
    rest.nodes (ofs + (propBytes nameoff data).length) depth
  | .node name items rest, ofs, depth =>
    ((ofs : Int), depth) :: (items.nodes (ofs + (nodeHead name).length) (depth + 1) ++
      rest.nodes (ofs + (nodeHead name).length + items.bytes.length + 4) depth)

/-- All nodes but the root. -/
def Tree.nodes (tree : Tree) : List (Int × Int) :=
  tree.items.nodes (nodeHead tree.name).length 1

/-- The tree is in memory where the header says. -/
structure Fdt.Holds (fdt : Fdt) (tree : Tree) : Prop where
  aligned : 4 ∣ fdt.dtStruct
  room : fdt.dtStruct + tree.bytes.length ≤ 2 ^ 64
  size : fdt.sizeDtStruct.toNat = tree.bytes.length
  mem : slice fdt.mem fdt.dtStruct tree.bytes.length = tree.bytes

end Layout

section Words
variable {fdt : Fdt} {pos : Nat}

/-- A list of bytes lies at an address. -/
def Fdt.At (fdt : Fdt) (pos : Nat) (bytes : List UInt8) : Prop :=
  slice fdt.mem pos bytes.length = bytes

theorem Fdt.At.append {xs ys : List UInt8} (h : fdt.At pos (xs ++ ys)) :
    fdt.At pos xs ∧ fdt.At (pos + xs.length) ys := by
  rw [Fdt.At, List.length_append, slice_add] at h
  exact List.append_inj h (length_slice _ _ _)

@[simp] theorem length_wordBytes (w : BitVec 32) : (wordBytes w).length = 4 := by
  rw [wordBytes, List.length_map, List.length_range]

theorem Fdt.At.word {w : BitVec 32} (h : fdt.At pos (wordBytes w)) : fdt32ToCpu fdt pos = w := by
  rw [Fdt.At, length_wordBytes, slice, wordBytes, List.map_inj_left] at h
  rw [fdt32ToCpu, Endian.word]
  refine leWord_wordByte fun k hk => ?_
  have hbyte := h (3 - k) (List.mem_range.mpr (by omega))
  have hback : 3 - (3 - k) = k := by omega
  rw [Endian.byte, hback] at hbyte
  exact hbyte

theorem length_padding (n : Nat) : n + (padding n).length = (n + 3) / 4 * 4 := by
  rw [padding, List.length_replicate]
  omega

theorem ceil4_eq {x : Nat} (h : x + 3 < 2 ^ 64) : ceil4 x = (x + 3) / 4 * 4 := by
  have hmask := land_highMask (x + 3) (by decide : 2 ≤ 64)
  rw [Nat.mod_eq_of_lt h] at hmask
  exact hmask

theorem length_nodeHead (name : NodeName) :
    (nodeHead name).length = 4 + (name.bytes.length + 1 + 3) / 4 * 4 := by
  rw [nodeHead, List.length_append, length_wordBytes, List.length_append, List.length_append,
    List.length_singleton, length_padding]

theorem length_propBytes (nameoff : BitVec 32) (data : List UInt8) :
    (propBytes nameoff data).length = 12 + (data.length + 3) / 4 * 4 := by
  rw [propBytes, List.length_append, List.length_append, List.length_append, List.length_append,
    length_padding, length_wordBytes, length_wordBytes, length_wordBytes]
  omega

theorem Fdt.At.cons {c : UInt8} {bytes : List UInt8} (h : fdt.At pos (c :: bytes)) :
    fdt.mem pos = c ∧ fdt.At (pos + 1) bytes := by
  obtain ⟨hfirst, hrest⟩ := @Fdt.At.append fdt pos [c] bytes h
  exact ⟨List.singleton_inj.mp hfirst, hrest⟩

/-- The end of a name is found. -/
theorem Fdt.At.skipName {name : List UInt8} {fuel : Nat} (h : fdt.At pos (name ++ [0]))
    (hnul : 0 ∉ name) (hfuel : name.length < fuel) :
    fdtSkipName fdt fuel pos = some (pos + name.length + 1) := by
  induction name generalizing pos fuel with
  | nil =>
      obtain ⟨fuel, rfl⟩ := Nat.exists_eq_add_of_lt hfuel
      rw [List.length_nil, Nat.zero_add, fdtSkipName, if_pos h.cons.1]
  | cons c name ih =>
      obtain ⟨fuel, rfl⟩ := Nat.exists_eq_add_of_lt hfuel
      obtain ⟨hbyte, hrest⟩ := h.cons
      have hne : ¬c = 0 := fun hc => hnul (hc ▸ List.mem_cons_self)
      rw [fdtSkipName, if_neg (hbyte ▸ hne),
        ih hrest (fun hmem => hnul (List.mem_cons_of_mem c hmem)) (by rw [List.length_cons]; omega)]
      rw [List.length_cons]
      congr 1
      omega

/-- The head of a node is consumed. -/
theorem Fdt.At.tryConsumeNode {name : NodeName} {offset depth : Int}
    (h : fdt.At pos (nodeHead name)) (haligned : 4 ∣ pos)
    (hroom : pos + (nodeHead name).length < 2 ^ 64)
    (hsize : (nodeHead name).length ≤ fdt.sizeDtStruct.toNat) :
    fdtTryConsumeNode fdt pos offset depth =
      some (pos + (nodeHead name).length, if offset = 0 then depth + 1 else depth) := by
  obtain ⟨htoken, hname⟩ := h.append
  rw [length_wordBytes] at hname
  have hlen := length_nodeHead name
  have hfuel : name.bytes.length < fdt.sizeDtStruct.toNat := by omega
  have hskip := hname.append.1.skipName name.no_nul hfuel
  have hceil : ceil4 (pos + 4 + name.bytes.length + 1) = pos + (nodeHead name).length := by
    rw [ceil4_eq (by omega), hlen]
    omega
  rw [fdtTryConsumeNode, if_pos htoken.word, hskip, Option.map_some, hceil]

/-- A property is as long as its bytes. -/
theorem Fdt.At.consumeProp {nameoff : BitVec 32} {data : List UInt8}
    (h : fdt.At pos (propBytes nameoff data))
    (hsize : (propBytes nameoff data).length < 2 ^ 32) :
    fdtConsumeProp fdt pos = (propBytes nameoff data).length := by
  have hlen := length_propBytes nameoff data
  have hword := h.append.2.append.1.word
  rw [length_wordBytes] at hword
  have hdata : (BitVec.ofNat 32 data.length).toNat = data.length := by
    rw [BitVec.toNat_ofNat, Nat.mod_eq_of_lt (by omega)]
  rw [fdtConsumeProp, hword, hdata, ceil4_eq (by omega), ← hlen, Nat.mod_eq_of_lt hsize]

end Words

section Steps
variable {fdt : Fdt} {fuel pos : Nat} {depth : Int}

/-- A turn of the loop. -/
theorem fdtNextLoop_succ :
    fdtNextLoop fdt (fuel + 1) pos depth =
      if fdt32ToCpu fdt pos = FDT_BEGIN_NODE then
        some ((pos : Int) - fdt.dtStruct, depth + 1)
      else if fdt32ToCpu fdt pos = FDT_END_NODE then
        if depth < 0 then some (FDT_EBADSTRUCT, depth)
        else fdtNextLoop fdt fuel (pos + 4) (depth - 1)
      else if fdt32ToCpu fdt pos = FDT_END then some (FDT_EEND, depth)
      else if fdt32ToCpu fdt pos = FDT_PROP then
        fdtNextLoop fdt fuel (pos + fdtConsumeProp fdt pos) depth
      else fdtNextLoop fdt fuel (pos + 4) depth := rfl

theorem fdtNextLoop_begin (h : fdt32ToCpu fdt pos = FDT_BEGIN_NODE) :
    fdtNextLoop fdt (fuel + 1) pos depth = some ((pos : Int) - fdt.dtStruct, depth + 1) := by
  rw [fdtNextLoop_succ, h, if_pos rfl]

theorem fdtNextLoop_endNode (h : fdt32ToCpu fdt pos = FDT_END_NODE) (hdepth : 0 ≤ depth) :
    fdtNextLoop fdt (fuel + 1) pos depth = fdtNextLoop fdt fuel (pos + 4) (depth - 1) := by
  rw [fdtNextLoop_succ, h, if_neg (by decide), if_pos rfl, if_neg (Int.not_lt.mpr hdepth)]

theorem fdtNextLoop_end (h : fdt32ToCpu fdt pos = FDT_END) :
    fdtNextLoop fdt (fuel + 1) pos depth = some (FDT_EEND, depth) := by
  rw [fdtNextLoop_succ, h, if_neg (by decide), if_neg (by decide), if_pos rfl]

theorem fdtNextLoop_prop (h : fdt32ToCpu fdt pos = FDT_PROP) :
    fdtNextLoop fdt (fuel + 1) pos depth =
      fdtNextLoop fdt fuel (pos + fdtConsumeProp fdt pos) depth := by
  rw [fdtNextLoop_succ, h, if_neg (by decide), if_neg (by decide), if_neg (by decide), if_pos rfl]

theorem fdtNextLoop_nop (h : fdt32ToCpu fdt pos = FDT_NOP) :
    fdtNextLoop fdt (fuel + 1) pos depth = fdtNextLoop fdt fuel (pos + 4) depth := by
  rw [fdtNextLoop_succ, h, if_neg (by decide), if_neg (by decide), if_neg (by decide),
    if_neg (by decide)]

end Steps

section Walk
variable {fdt : Fdt}

/-- The nodes among what is left inside of nodes. -/
def levelNodes : List Items → Nat → List (Int × Int)
  | [], _ => []
  | items :: levels, ofs =>
    items.nodes ofs (levels.length + 1) ++ levelNodes levels (ofs + items.bytes.length + 4)

/-- What a walk does after a call. -/
def follow (fdt : Fdt) (n : Nat) (r : Int × Int) : Option (List (Int × Int) × Int) :=
  if r.1 < 0 then some ([], r.1) else (fdtWalk fdt n r.1 r.2).map fun l => (r :: l.1, l.2)

theorem fdtWalk_succ (n : Nat) (offset depth : Int) :
    fdtWalk fdt (n + 1) offset depth = (fdtNextNode fdt offset depth).bind (follow fdt n) := rfl

/-- The rest of the block, from an offset on. -/
structure Fdt.Left (fdt : Fdt) (bytes : List UInt8) (ofs : Nat) : Prop where
  aligned : 4 ∣ fdt.dtStruct
  dvd : 4 ∣ ofs
  room : fdt.dtStruct + fdt.sizeDtStruct.toNat ≤ 2 ^ 64
  size : ofs + bytes.length = fdt.sizeDtStruct.toNat
  mem : fdt.At (fdt.dtStruct + ofs) bytes

theorem Fdt.Left.append {xs ys : List UInt8} {ofs : Nat} (h : fdt.Left (xs ++ ys) ofs)
    (hdvd : 4 ∣ xs.length) :
    fdt.At (fdt.dtStruct + ofs) xs ∧ fdt.Left ys (ofs + xs.length) := by
  have hsize := h.size
  have hmem := h.mem.append
  rw [List.length_append] at hsize
  rw [Nat.add_assoc] at hmem
  exact ⟨hmem.1, h.aligned, (Nat.dvd_add_right h.dvd).mpr hdvd, h.room, by omega, hmem.2⟩

section Rest
variable (nops : Nat) (rest : Items) (levels : List Items)

theorem restBytes_end : restBytes (nops + 1) [] = wordBytes FDT_NOP ++ restBytes nops [] := rfl

theorem restBytes_done : restBytes nops (.done :: levels) =
    wordBytes FDT_END_NODE ++ restBytes nops levels := rfl

theorem restBytes_cons : restBytes nops (rest :: levels) =
    rest.bytes ++ (wordBytes FDT_END_NODE ++ restBytes nops levels) := rfl

theorem levelNodes_cons (ofs : Nat) : levelNodes (rest :: levels) ofs =
    rest.nodes ofs (levels.length + 1) ++ levelNodes levels (ofs + rest.bytes.length + 4) := rfl

theorem restBytes_nop : restBytes nops (.nop rest :: levels) =
    wordBytes FDT_NOP ++ restBytes nops (rest :: levels) := by
  rw [restBytes_cons, Items.bytes_nop, List.append_assoc, restBytes_cons]

theorem restBytes_prop (nameoff : BitVec 32) (data : List UInt8) :
    restBytes nops (.prop nameoff data rest :: levels) =
      propBytes nameoff data ++ restBytes nops (rest :: levels) := by
  rw [restBytes_cons, Items.bytes_prop, List.append_assoc, restBytes_cons]

theorem restBytes_node (name : NodeName) (items : Items) :
    restBytes nops (.node name items rest :: levels) =
      nodeHead name ++ restBytes nops (items :: rest :: levels) := by
  simp only [restBytes_cons, Items.bytes_node, List.append_assoc]

theorem levelNodes_nop (ofs : Nat) :
    levelNodes (.nop rest :: levels) ofs = levelNodes (rest :: levels) (ofs + 4) := by
  rw [levelNodes_cons, Items.nodes, Items.bytes_nop, levelNodes_cons, List.length_append,
    length_wordBytes, ← Nat.add_assoc]

theorem levelNodes_prop (nameoff : BitVec 32) (data : List UInt8) (ofs : Nat) :
    levelNodes (.prop nameoff data rest :: levels) ofs =
      levelNodes (rest :: levels) (ofs + (propBytes nameoff data).length) := by
  rw [levelNodes_cons, Items.nodes, Items.bytes_prop, levelNodes_cons, List.length_append,
    ← Nat.add_assoc]

/-- A node comes before its children, and these before what follows it. -/
theorem levelNodes_node (name : NodeName) (items : Items) (ofs : Nat) :
    levelNodes (.node name items rest :: levels) ofs =
      ((ofs : Int), (levels.length : Int) + 1) ::
        levelNodes (items :: rest :: levels) (ofs + (nodeHead name).length) := by
  have hend : ofs + ((nodeHead name).length + (items.bytes.length + (4 + rest.bytes.length))) + 4 =
      ofs + (nodeHead name).length + items.bytes.length + 4 + rest.bytes.length + 4 := by omega
  simp only [levelNodes_cons, Items.nodes, Items.bytes_node, List.length_append, List.length_cons,
    length_wordBytes, List.cons_append, List.append_assoc, Nat.cast_succ, hend]

theorem four_le_restBytes : 4 ≤ (restBytes nops levels).length := by
  cases levels with
  | nil =>
      cases nops with
      | zero => rw [restBytes, endBytes, length_wordBytes]
      | succ nops =>
          rw [restBytes, endBytes, List.length_append, length_wordBytes]
          exact Nat.le_add_right _ _
  | cons items levels =>
      rw [restBytes_cons, List.length_append, List.length_append, length_wordBytes]
      omega

end Rest

/-- The call at a node goes on behind its name. -/
theorem fdtNextNode_node {ofs : Nat} {name : NodeName} {bytes : List UInt8} {offset depth : Int}
    (h : fdt.Left (nodeHead name ++ bytes) ofs) (hofs : offset = ofs) (hbytes : 0 < bytes.length) :
    fdtNextNode fdt offset depth = fdtNextLoop fdt fdt.sizeDtStruct.toNat
      (fdt.dtStruct + (ofs + (nodeHead name).length))
      (if offset = 0 then depth + 1 else depth) := by
  have hlen := length_nodeHead name
  have hsize := h.size
  have hroom := h.room
  have hdvd := h.dvd
  rw [List.length_append] at hsize
  have hhead := (h.append (by omega)).1
  have hoffset : ¬(offset < 0 ∨ (fdt.sizeDtStruct.toNat : Int) ≤ offset ∨ offset % 4 ≠ 0) := by
    omega
  have htoken := hhead.append.1.word
  have hname : offset.toNat = ofs := by omega
  rw [fdtNextNode, if_neg hoffset, hname, if_neg fun hbad => hbad.2 htoken,
    hhead.tryConsumeNode (by have := h.aligned; omega) (by omega) (by omega), Nat.add_assoc]
  rfl

/-- The call that stands inside of the nodes `levels`, behind an offset, and the calls
after it find the rest of the nodes. -/
def Fdt.Found (fdt : Fdt) (nops : Nat) (levels : List Items) : Prop :=
  ∀ ⦃ofs fuel n : Nat⦄, 0 < ofs → fdt.Left (restBytes nops levels) ofs →
    (restBytes nops levels).length ≤ fuel → (levelNodes levels ofs).length ≤ n →
    (fdtNextLoop fdt fuel (fdt.dtStruct + ofs) ((levels.length : Int) - 1)).bind (follow fdt n) =
      some (levelNodes levels ofs, FDT_EEND)

section Found
variable {nops : Nat} {rest : Items} {levels : List Items}

theorem found_end : fdt.Found 0 [] := by
  intro ofs fuel n _ h hfuel _
  have hpos := four_le_restBytes 0 []
  obtain ⟨fuel, rfl⟩ : ∃ m, fuel = m + 1 := ⟨fuel - 1, by omega⟩
  rw [fdtNextLoop_end h.mem.word]
  rfl

theorem found_endNop (ih : fdt.Found nops []) : fdt.Found (nops + 1) [] := by
  intro ofs fuel n hofs h hfuel hn
  rw [restBytes_end] at h hfuel
  rw [List.length_append, length_wordBytes] at hfuel
  obtain ⟨fuel, rfl⟩ : ∃ m, fuel = m + 1 := ⟨fuel - 1, by omega⟩
  obtain ⟨htoken, hleft⟩ := h.append (Nat.dvd_refl 4)
  rw [fdtNextLoop_nop htoken.word, Nat.add_assoc]
  exact ih (Nat.add_pos_left hofs 4) hleft (by omega) hn

/-- The end of a node is passed. -/
theorem found_done (ih : fdt.Found nops levels) : fdt.Found nops (.done :: levels) := by
  intro ofs fuel n hofs h hfuel hn
  rw [restBytes_done] at h hfuel
  rw [List.length_append, length_wordBytes] at hfuel
  obtain ⟨fuel, rfl⟩ : ∃ m, fuel = m + 1 := ⟨fuel - 1, by omega⟩
  obtain ⟨htoken, hleft⟩ := h.append (Nat.dvd_refl 4)
  have hdepth : ((Items.done :: levels).length : Int) - 1 = levels.length := by
    rw [List.length_cons]
    omega
  rw [hdepth, fdtNextLoop_endNode htoken.word (by omega), Nat.add_assoc]
  exact ih (Nat.add_pos_left hofs 4) hleft (by omega) hn

theorem found_nop (ih : fdt.Found nops (rest :: levels)) :
    fdt.Found nops (.nop rest :: levels) := by
  intro ofs fuel n hofs h hfuel hn
  rw [restBytes_nop] at h hfuel
  rw [List.length_append, length_wordBytes] at hfuel
  obtain ⟨fuel, rfl⟩ : ∃ m, fuel = m + 1 := ⟨fuel - 1, by omega⟩
  obtain ⟨htoken, hleft⟩ := h.append (Nat.dvd_refl 4)
  rw [levelNodes_nop] at hn ⊢
  rw [fdtNextLoop_nop htoken.word, Nat.add_assoc]
  exact ih (Nat.add_pos_left hofs 4) hleft (by omega) hn

theorem found_prop {nameoff : BitVec 32} {data : List UInt8}
    (ih : fdt.Found nops (rest :: levels)) :
    fdt.Found nops (.prop nameoff data rest :: levels) := by
  intro ofs fuel n hofs h hfuel hn
  have hlen := length_propBytes nameoff data
  have hsize := h.size
  rw [restBytes_prop] at h hfuel hsize
  rw [List.length_append] at hfuel hsize
  obtain ⟨fuel, rfl⟩ : ∃ m, fuel = m + 1 := ⟨fuel - 1, by omega⟩
  obtain ⟨hprop, hleft⟩ := h.append (by omega)
  have hlt := fdt.sizeDtStruct.isLt
  rw [levelNodes_prop] at hn ⊢
  rw [fdtNextLoop_prop hprop.append.1.word, hprop.consumeProp (by omega), Nat.add_assoc]
  exact ih (Nat.add_pos_left hofs _) hleft (by omega) hn

/-- A node is found, and the next call goes on behind its name. -/
theorem found_node {name : NodeName} {items : Items}
    (ih : fdt.Found nops (items :: rest :: levels)) :
    fdt.Found nops (.node name items rest :: levels) := by
  intro ofs fuel n hofs h hfuel hn
  have hlen := length_nodeHead name
  have hpos := four_le_restBytes nops (items :: rest :: levels)
  have hsize := h.size
  rw [restBytes_node] at h hfuel hsize
  rw [List.length_append] at hfuel hsize
  rw [levelNodes_node, List.length_cons] at hn
  obtain ⟨fuel, rfl⟩ : ∃ m, fuel = m + 1 := ⟨fuel - 1, by omega⟩
  obtain ⟨n, rfl⟩ : ∃ m, n = m + 1 := ⟨n - 1, by omega⟩
  obtain ⟨hhead, hleft⟩ := h.append (by omega)
  have hcall := @fdtNextNode_node fdt ofs name _ _ ((levels.length : Int) + 1) h rfl (by omega)
  rw [if_neg (by omega)] at hcall
  have hdepth : ((items :: rest :: levels).length : Int) - 1 = levels.length + 1 := by
    rw [List.length_cons, List.length_cons]
    omega
  have hrest := @ih _ fdt.sizeDtStruct.toNat n (Nat.add_pos_left hofs _) hleft (by omega)
    (Nat.le_of_succ_le_succ hn)
  rw [hdepth, ← hcall, ← fdtWalk_succ] at hrest
  have hofs' : ((fdt.dtStruct + ofs : Nat) : Int) - fdt.dtStruct = ofs := by omega
  have hdepth' : ((Items.node name items rest :: levels).length : Int) - 1 + 1 =
      levels.length + 1 := by
    rw [List.length_cons]
    omega
  rw [fdtNextLoop_begin hhead.append.1.word, levelNodes_node, Option.bind_some, hofs', hdepth',
    follow, if_neg (by omega), hrest]
  rfl

end Found

/-- From the middle of the block on, the rest of the nodes is found: by induction on the
bytes that are left. -/
theorem found_rest (nops : Nat) (levels : List Items) : fdt.Found nops levels := by
  induction hlen : (restBytes nops levels).length using Nat.strong_induction_on
    generalizing nops levels with
  | _ len ih =>
      subst hlen
      cases levels with
      | nil =>
          cases nops with
          | zero => exact found_end
          | succ nops =>
              rw [restBytes_end, List.length_append, length_wordBytes] at ih
              exact found_endNop (ih _ (by omega) nops [] rfl)
      | cons items levels =>
          cases items with
          | done =>
              rw [restBytes_done, List.length_append, length_wordBytes] at ih
              exact found_done (ih _ (by omega) nops levels rfl)
          | nop rest =>
              rw [restBytes_nop, List.length_append, length_wordBytes] at ih
              exact found_nop (ih _ (by omega) nops (rest :: levels) rfl)
          | prop nameoff data rest =>
              rw [restBytes_prop, List.length_append, length_propBytes] at ih
              exact found_prop (ih _ (by omega) nops (rest :: levels) rfl)
          | node name items rest =>
              rw [restBytes_node, List.length_append, length_nodeHead] at ih
              exact found_node (ih _ (by omega) nops (items :: rest :: levels) rfl)

/-- The call at the root, and those after it. -/
theorem fdtNextNode_root {tree : Tree} (h : fdt.Holds tree) {n : Nat} (hn : tree.nodes.length ≤ n) :
    (fdtNextNode fdt 0 (-1)).bind (follow fdt n) = some (tree.nodes, FDT_EEND) := by
  have hlen := length_nodeHead tree.name
  have hpos := four_le_restBytes tree.nops [tree.items]
  have hsize := h.size
  have hroom := h.room
  have hleft : fdt.Left (nodeHead tree.name ++ restBytes tree.nops [tree.items]) 0 :=
    ⟨h.aligned, Nat.dvd_zero 4, by omega, by rw [Nat.zero_add, h.size]; rfl, h.mem⟩
  have hcall := @fdtNextNode_node fdt 0 tree.name _ 0 (-1) hleft rfl (by omega)
  have hnodes : levelNodes [tree.items] (nodeHead tree.name).length = tree.nodes :=
    List.append_nil _
  have hrest := (hleft.append (by omega)).2
  rw [Nat.zero_add] at hrest hcall
  rw [Tree.bytes, List.length_append] at hsize
  have hwalk := @found_rest fdt tree.nops [tree.items] (nodeHead tree.name).length
    fdt.sizeDtStruct.toNat n (by omega) hrest (by omega) (by rw [hnodes]; omega)
  rw [hcall, ← hnodes]
  exact hwalk

def NodeName.ofString (s : CString) : NodeName := ⟨s.bytes, s.noNul⟩

/-- A node with two children, the second with a property and a NOP token. -/
def smallTree : Tree where
  name := .ofString (.ofBuffer [])
  items := .nop (.node (.ofString (.ofBuffer [97])) .done
    (.node (.ofString (.ofBuffer [98, 99, 100, 101]))
      (.prop 0 [1, 2, 3, 4, 5] (.nop (.node (.ofString (.ofBuffer [102])) .done .done)))
      (.nop .done)))
  nops := 1

def smallFdt : Fdt where
  mem := fun a => smallTree.bytes.getD (a - 4096) 0
  dtStruct := 4096
  sizeDtStruct := BitVec.ofNat 32 smallTree.bytes.length

end Walk

end Plo.Sbi
