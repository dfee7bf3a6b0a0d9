import Mathlib.Data.List.TakeWhile
import OsProj.WorkerCounting

/-! The vertex degrees of hw-map-reduce/app/vertex_degree. A file is read with `strtol`, two
integers at a time; each vertex is emitted as the bytes of an `int`. These keys may hold
zero bytes, and the comparison of keys stops there. -/
namespace OsProj.Worker

open OsProj.ByteList
open OsProj.Faulting

def isspace (b : UInt8) : Bool := b == 32 || (9 ≤ b && b ≤ 13)

def isdigit (b : UInt8) : Bool := 48 ≤ b && b ≤ 57

def sign : Bytes → Bool × Bytes
  | 45 :: rest => (true,rest)
  | 43 :: rest => (false,rest)
  | rest => (false,rest)

def digitsValue (digits : Bytes) : Nat := digits.foldl (fun value d => 10 * value + (d.toNat - 48)) 0

def signedValue (negative : Bool) (digits : Bytes) : Int := if negative then -digitsValue digits else digitsValue digits

/-- `strtol` with base 10 on a string with its terminating zero: the value, within the range
of a `long`, and the rest of the string, or `none` when there is no number. -/
def strtol (contents : Bytes) : Option (Int × Bytes) :=
  let (negative,rest) := sign (contents.dropWhile isspace)
  let digits := rest.takeWhile isdigit
  if digits = [] then none
  else some (max (-9223372036854775808) (min 9223372036854775807 (signedValue negative digits)),rest.dropWhile isdigit)

def getPair (contents : Bytes) : Option ((Int × Int) × Bytes) := do
  let (a,next) ← strtol contents
  let (b,next') ← strtol next
  return ((toInt a,toInt b),next')

def pairsLoop : Nat → Bytes → List (Int × Int) → Except Fault (List (Int × Int))
  | 0,_,_ => .error .unending
  | fuel + 1,contents,pairs =>
    match getPair contents with
    | none => .ok pairs
    | some (p,rest) => pairsLoop fuel rest (pairs ++ [p])

/-- A pair takes bytes from the string, so the loop ends. -/
def getPairs (contents : Bytes) : Except Fault (List (Int × Int)) := pairsLoop (contents.length + 1) contents []

def sizedBufferToStr (buf : Bytes) : Bytes := buf ++ [0]

/-- One more than the largest `guint`, the type of `g_list_length`. -/
def guintLimit : Nat := 4294967296

/-- The loop of `vertex_degree_map` over the pairs; `kva` is the written part of an array
with room for `slots` pairs and `index` an `int`. -/
def fillLoop (slots : Nat) : Nat → List (Int × Int) → List KeyValue → Except Fault (List KeyValue)
  | _,[],kva => .ok kva
  | index,p :: rest,kva =>
    if index + 1 < intLimit ∧ index + 2 < intLimit then
      if index + 1 < slots then
        fillLoop slots (index + 2) rest (kva ++ [⟨intBytes p.1,one⟩,⟨intBytes p.2,one⟩])
      else .error .outOfBounds
    else .error .overflow

def vertexDegreeMap (input : KeyValue) (_aux : Bytes) : Except Fault (List KeyValue) := do
  let pairs ← getPairs (sizedBufferToStr input.value)
  let n := pairs.length % guintLimit
  let kva ← fillLoop (2 * n) 0 pairs []
  if kva.length < 2 * n then throw .outOfBounds
  return kva

def vertexDegreeApp : App := ⟨vertexDegreeMap,countReduce⟩

/-! The files with edges. -/

def tokens (content : Bytes) : List Bytes := (content.splitOnP isspace).filter fun token => !token.isEmpty

def decimal (token : Bytes) : Option Int :=
  let (negative,digits) := sign token
  if digits ≠ [] ∧ digits.all isdigit then some (signedValue negative digits) else none

def InRange (v : Int) : Prop := -2147483648 ≤ v ∧ v < 2147483648

/-- A file with an even number of integers of type `int`. -/
structure EdgeFile (content : Bytes) : Prop where
  integers : ∀ token ∈ tokens content, ∃ v, decimal token = some v ∧ InRange v
  even : (tokens content).length % 2 = 0

def vertices (content : Bytes) : List Int := (tokens content).filterMap decimal

theorem tokens_space (space : isspace b = true) (content : Bytes) : tokens (b :: content) = tokens content := by
  rw [tokens,List.splitOnP_cons_eq_if_modifyHead,if_pos space]
  rfl

theorem tokens_dropWhile (content : Bytes) : tokens (content.dropWhile isspace) = tokens content := by
  induction content with
  | nil => rfl
  | cons b content ih =>
    by_cases space : isspace b = true
    · rw [List.dropWhile_cons_of_pos space,ih,tokens_space space]
    · rw [List.dropWhile_cons_of_neg space]

/-- A string is a token and a rest that is empty or begins with white space. -/
theorem tokens_first (token : Bytes) (nonempty : token ≠ []) (solid : ∀ b ∈ token, isspace b = false) (rest : Bytes)
    (ended : rest.head?.all isspace = true) : tokens (token ++ rest) = token :: tokens rest := by
  cases rest with
  | nil =>
    rw [List.append_nil,tokens,List.splitOnP_eq_singleton solid]
    simp [tokens,nonempty]
  | cons b rest =>
    have space : isspace b = true := by simpa using ended
    rw [tokens_space space,tokens,List.splitOnP_append_cons_of_forall_mem solid b space]
    simp [tokens,nonempty]

/-- What is left of a string starts with a byte that fails the test. -/
theorem head_dropWhile (p : UInt8 → Bool) (content : Bytes) : (content.dropWhile p).head?.all (fun b => !p b) = true := by
  have := List.head?_dropWhile_not p content
  cases head : (content.dropWhile p).head? with
  | none => rfl
  | some b =>
    rw [head] at this
    rw [Option.all_some,this,Bool.not_false]

/-- The next token of a string, after white space. -/
theorem tokens_next (nonblank : content.dropWhile isspace ≠ []) :
    ∃ token rest, content.dropWhile isspace = token ++ rest ∧ token ≠ [] ∧ rest.head?.all isspace = true ∧
      tokens content = token :: tokens rest := by
  obtain ⟨b,u,shape⟩ := List.exists_cons_of_ne_nil nonblank
  have solid : (!isspace b) = true := by
    have head := head_dropWhile isspace content
    rwa [shape,List.head?_cons,Option.all_some] at head
  have nonempty : (b :: u).takeWhile (fun b => !isspace b) ≠ [] := by
    rw [List.takeWhile_cons,if_pos solid]
    exact List.cons_ne_nil _ _
  have ended : ((b :: u).dropWhile fun b => !isspace b).head?.all isspace = true := by
    have head := head_dropWhile (fun b => !isspace b) (b :: u)
    simpa using head
  refine ⟨(b :: u).takeWhile fun b => !isspace b,(b :: u).dropWhile fun b => !isspace b,?_,nonempty,ended,?_⟩
  · rw [shape,List.takeWhile_append_dropWhile]
  · have inside : ∀ c ∈ (b :: u).takeWhile fun b => !isspace b, isspace c = false := by
      intro c member
      simpa using List.mem_takeWhile_imp member
    rw [← tokens_first _ nonempty inside _ ended,List.takeWhile_append_dropWhile,← shape,tokens_dropWhile]

theorem sign_append (nonempty : token ≠ []) (rest : Bytes) : sign (token ++ rest) = ((sign token).1,(sign token).2 ++ rest) := by
  cases token with
  | nil => contradiction
  | cons b token =>
    by_cases minus : b = 45
    · subst minus
      rfl
    · by_cases plus : b = 43
      · subst plus
        rfl
      · have plain : ∀ rest, sign (b :: rest) = (false,b :: rest) := by
          intro rest
          unfold sign
          split
          · rename_i same
            exact absurd (List.cons.inj same).1 minus
          · rename_i same
            exact absurd (List.cons.inj same).1 plus
          · rfl
        rw [List.cons_append,plain,plain]
        rfl

/-- White space and the terminating zero are no digits. -/
theorem ended_digit (ended : rest.head?.all isspace = true) : (rest ++ [0]).head?.all (fun b => !isdigit b) = true := by
  cases rest with
  | nil => decide
  | cons b rest =>
    have space : isspace b = true := by simpa using ended
    have digit : ∀ b, isspace b = true → (!isdigit b) = true := by
      intro b
      simp only [isspace,isdigit,Bool.or_eq_true,Bool.and_eq_true,decide_eq_true_eq,beq_iff_eq,UInt8.le_iff_toNat_le]
      rintro (rfl | ⟨_,high⟩)
      · decide
      · simp at high ⊢
        omega
    simpa using digit b space

theorem takeWhile_ended {p : UInt8 → Bool} {digits : Bytes} (all : ∀ b ∈ digits, p b = true) (ended : rest.head?.all (fun b => !p b) = true) :
    (digits ++ rest).takeWhile p = digits ∧ (digits ++ rest).dropWhile p = rest := by
  rw [List.takeWhile_append_of_pos all,List.dropWhile_append_of_pos all]
  cases rest with
  | nil => simp
  | cons b rest =>
    have other : ¬p b = true := by simpa using ended
    simp [other]

theorem dropWhile_terminated (content : Bytes) : (content ++ [0]).dropWhile isspace = content.dropWhile isspace ++ [0] := by
  rw [List.dropWhile_append]
  split
  · rename_i none
    rw [List.isEmpty_iff.mp none]
    rfl
  · rfl

/-- `strtol` reads the next token. -/
theorem strtol_token (next : tokens content = token :: ts) (value : decimal token = some v) (range : InRange v) :
    ∃ rest, strtol (content ++ [0]) = some (v,rest ++ [0]) ∧ tokens rest = ts ∧ rest.length < content.length := by
  have nonblank : content.dropWhile isspace ≠ [] := by
    intro none
    rw [← tokens_dropWhile,none] at next
    cases next
  obtain ⟨token',rest,shape,nonempty,ended,first⟩ := tokens_next nonblank
  obtain ⟨rfl,later⟩ := List.cons.inj (next.symm.trans first)
  have shorter : rest.length < content.length := by
    have bound := List.length_dropWhile_le isspace content
    have some := List.length_pos_of_ne_nil nonempty
    rw [shape,List.length_append] at bound
    omega
  refine ⟨rest,?_,later.symm,shorter⟩
  unfold decimal at value
  dsimp only at value
  split at value
  · rename_i spelled
    obtain ⟨some,digits⟩ := spelled
    obtain ⟨taken,left⟩ := takeWhile_ended (by simpa using digits) (ended_digit ended)
    unfold strtol
    rw [dropWhile_terminated,shape,List.append_assoc,sign_append nonempty]
    dsimp only
    rw [taken,left,if_neg some,Option.some.inj value]
    congr 2
    obtain ⟨low,high⟩ := range
    omega
  · cases value

theorem strtol_blank (none : tokens content = []) : strtol (content ++ [0]) = .none := by
  have blank : content.dropWhile isspace = [] := by
    by_contra nonblank
    obtain ⟨token,rest,_,_,_,first⟩ := tokens_next nonblank
    cases none.symm.trans first
  unfold strtol
  rw [dropWhile_terminated,blank]
  rfl

def couple : List Int → List (Int × Int)
  | a :: b :: rest => (a,b) :: couple rest
  | _ => []

theorem EdgeFile.vertex (file : EdgeFile content) (member : v ∈ vertices content) : InRange v := by
  obtain ⟨token,inside,value⟩ := List.mem_filterMap.mp member
  obtain ⟨w,value',range⟩ := file.integers token inside
  obtain rfl := Option.some.inj (value.symm.trans value')
  exact range

theorem getPair_edge (readA : strtol contents = some (a,next)) (readB : strtol next = some (b,rest)) (rangeA : InRange a)
    (rangeB : InRange b) : getPair contents = some ((a,b),rest) := by
  have converted : getPair contents = some ((toInt a,toInt b),rest) := by
    simp [getPair,readA,readB]
  rw [converted,toInt_small rangeA.1 rangeA.2,toInt_small rangeB.1 rangeB.2]

/-- The loop of `get_pairs` reads the vertices of the file. -/
theorem pairsLoop_edges (file : EdgeFile content) (enough : content.length < fuel) (pairs : List (Int × Int)) :
    pairsLoop fuel (content ++ [0]) pairs = .ok (pairs ++ couple (vertices content)) := by
  induction fuel generalizing content pairs with
  | zero => contradiction
  | succ fuel ih =>
    obtain ⟨integers,even⟩ := file
    match first : tokens content with
    | [] =>
      rw [pairsLoop,getPair,strtol_blank first,vertices,first]
      simp [couple]
    | [token] =>
      rw [first] at even
      cases even
    | token :: token' :: ts =>
      rw [first] at integers even
      obtain ⟨a,valueA,rangeA⟩ := integers token (by simp)
      obtain ⟨b,valueB,rangeB⟩ := integers token' (by simp)
      obtain ⟨rest,readA,later,shorter⟩ := strtol_token first valueA rangeA
      obtain ⟨rest',readB,later',shorter'⟩ := strtol_token later valueB rangeB
      have file' : EdgeFile rest' := by
        constructor
        · intro token inside
          exact integers token (by simp [later' ▸ inside])
        · rw [later']
          simp only [List.length_cons] at even
          omega
      have next := ih file' (by omega) (pairs ++ [(a,b)])
      have same : vertices content = a :: b :: vertices rest' := by
        rw [vertices,vertices,first,later',List.filterMap_cons_some valueA,List.filterMap_cons_some valueB]
      rw [pairsLoop,getPair_edge readA readB rangeA rangeB]
      dsimp only
      rw [next,same,couple,List.append_assoc,List.singleton_append]

def vertexPairs (vs : List Int) : List KeyValue := vs.map fun v => ⟨intBytes v,one⟩

theorem couple_length (even : vs.length % 2 = 0) : 2 * (couple vs).length = vs.length := by
  fun_induction couple vs with
  | case1 a b rest ih =>
    simp only [List.length_cons] at even ⊢
    have := ih (by omega)
    omega
  | case2 vs short =>
    match vs with
    | [] => rfl
    | [a] => cases even
    | a :: b :: rest => exact absurd rfl (short a b rest)

theorem fillLoop_vertices (even : vs.length % 2 = 0) (kva : List KeyValue) (room : kva.length + vs.length ≤ slots)
    (fits : kva.length + vs.length < intLimit) : fillLoop slots kva.length (couple vs) kva = .ok (kva ++ vertexPairs vs) := by
  fun_induction couple vs generalizing kva with
  | case1 a b rest ih =>
    simp only [List.length_cons] at even room fits
    have next := ih (by omega) (kva ++ [⟨intBytes a,one⟩,⟨intBytes b,one⟩]) (by simp; omega) (by simp; omega)
    rw [fillLoop,if_pos (by omega),if_pos (by omega)]
    rw [List.length_append] at next
    rw [show kva.length + 2 = kva.length + [(⟨intBytes a,one⟩ : KeyValue),⟨intBytes b,one⟩].length from rfl,next]
    simp [vertexPairs]
  | case2 vs short =>
    match vs with
    | [] => simp [fillLoop,vertexPairs]
    | [a] => cases even
    | a :: b :: rest => exact absurd rfl (short a b rest)

/-- Too many vertices for the index. -/
theorem fillLoop_fails (before : index < intLimit) (many : intLimit ≤ index + 2 * pairs.length) (kva : List KeyValue) :
    ∃ fault, fillLoop slots index pairs kva = .error fault := by
  induction pairs generalizing index kva with
  | nil =>
    simp at many
    omega
  | cons p pairs ih =>
    rw [fillLoop]
    split
    · rename_i fits
      split
      · rw [List.length_cons] at many
        exact ih fits.2 (by omega) _
      · exact ⟨_,rfl⟩
    · exact ⟨_,rfl⟩

theorem EdgeFile.length (file : EdgeFile content) : (vertices content).length % 2 = 0 := by
  have all : ∀ ts : List Bytes, (∀ token ∈ ts, ∃ v, decimal token = some v ∧ InRange v) → (ts.filterMap decimal).length = ts.length := by
    intro ts integers
    induction ts with
    | nil => rfl
    | cons token ts ih =>
      obtain ⟨v,value,_⟩ := integers token (by simp)
      rw [List.filterMap_cons_some value,List.length_cons,List.length_cons,ih fun token inside => integers token (by simp [inside])]
  rw [vertices,all _ file.integers]
  exact file.even

section
variable {input : KeyValue}

/-- `vertex_degree_map` emits the vertices of the file when an `int` counts them. -/
theorem vertexDegreeMap_vertices (file : EdgeFile input.value) (small : (vertices input.value).length < intLimit) (aux : Bytes) :
    vertexDegreeMap input aux = .ok (vertexPairs (vertices input.value)) := by
  have read : getPairs (sizedBufferToStr input.value) = .ok (couple (vertices input.value)) :=
    pairsLoop_edges file (by simp only [sizedBufferToStr,List.length_append,List.length_singleton]; omega) []
  have coupled := couple_length file.length
  have length : 2 * ((couple (vertices input.value)).length % guintLimit) = (vertices input.value).length := by
    rw [Nat.mod_eq_of_lt,coupled]
    exact Nat.lt_trans (show _ < intLimit by omega) (by decide)
  have filled := fillLoop_vertices file.length [] (show [].length + _ ≤ (vertices input.value).length by simp) (by simpa using small)
  rw [vertexDegreeMap,go read]
  dsimp only
  rw [length]
  rw [List.length_nil,List.nil_append] at filled
  rw [go filled,if_neg (by simp [vertexPairs])]
  rfl

theorem vertexDegreeMap_fails (file : EdgeFile input.value) (many : intLimit ≤ (vertices input.value).length) (aux : Bytes) :
    ∃ fault, vertexDegreeMap input aux = .error fault := by
  have read : getPairs (sizedBufferToStr input.value) = .ok (couple (vertices input.value)) :=
    pairsLoop_edges file (by simp only [sizedBufferToStr,List.length_append,List.length_singleton]; omega) []
  have coupled := couple_length file.length
  obtain ⟨fault,stopped⟩ : ∃ fault, fillLoop (2 * ((couple (vertices input.value)).length % guintLimit)) 0 (couple (vertices input.value)) [] =
      .error fault := fillLoop_fails (by decide) (by omega) []
  refine ⟨fault,?_⟩
  rw [vertexDegreeMap,go read]
  dsimp only
  rw [stopped]
  rfl

end

/-! The keys of a job. -/

theorem intBytes_length (v : Int) : (intBytes v).length = intSize := leBytes_length ..

theorem intBytes_injective (rangeU : InRange u) (rangeV : InRange v) (same : intBytes u = intBytes v) : u = v := by
  have values : (u % 4294967296).toNat = (v % 4294967296).toNat := by
    refine leBytes_injective ?_ ?_ same
    · have := Int.emod_lt_of_pos u (show (0 : Int) < 4294967296 by decide)
      simp [intSize]
      omega
    · have := Int.emod_lt_of_pos v (show (0 : Int) < 4294967296 by decide)
      simp [intSize]
      omega
  obtain ⟨lowU,highU⟩ := rangeU
  obtain ⟨lowV,highV⟩ := rangeV
  omega

theorem intBytes_count {vs : List Int} (range : ∀ u ∈ vs, InRange u) (known : v ∈ vs) : (vs.map intBytes).count (intBytes v) = vs.count v := by
  rw [List.count,List.countP_map,List.count]
  refine List.countP_congr fun u inside => ?_
  rw [Function.comp_apply,beq_iff_eq,beq_iff_eq]
  constructor
  · exact intBytes_injective (range u inside) (range v known)
  · exact congrArg intBytes

/-- The comparison of keys does not stop early: two vertices of one reduce task with the same
bytes up to a zero byte are the same. -/
def ToldApart (n : Nat) (vs : List Int) : Prop :=
  ∀ u ∈ vs, ∀ v ∈ vs, (ihash (intBytes u)).toNat % n = (ihash (intBytes v)).toNat % n →
    strncmp (intBytes u) (intBytes v) intSize = 0 → u = v

theorem strncmp_cstr (u v : Int) : strncmp (intBytes u) (intBytes v) intSize = 0 ↔ cstr (intBytes u) = cstr (intBytes v) := by
  have short : ∀ v, (intBytes v).length < 2147483648 := by
    intro v
    rw [intBytes_length]
    decide
  have lengths : (intBytes u).length = (intBytes v).length := (intBytes_length u).trans (intBytes_length v).symm
  rw [← (compareKeys_order (.inr lengths) (short u) (short v)).2,compareKeys,intBytes_length,intBytes_length,Nat.min_self]
  split
  · rename_i zero
    simp [zero,toInt]
  · rfl

theorem separated_toldApart (range : ∀ u ∈ vs, InRange u) : Separated n (vs.map intBytes) ↔ ToldApart n vs := by
  constructor
  · intro separated u inU v inV task same
    refine intBytes_injective (range u inU) (range v inV) ?_
    exact separated _ (List.mem_map_of_mem inU) _ (List.mem_map_of_mem inV) task ((strncmp_cstr u v).mp same)
  · intro apart a inA b inB task same
    obtain ⟨u,inU,rfl⟩ := List.mem_map.mp inA
    obtain ⟨v,inV,rfl⟩ := List.mem_map.mp inB
    exact congrArg intBytes (apart u inU v inV task ((strncmp_cstr u v).mpr same))

def vertexDegreeJob (inputs : List KeyValue) (nReduce : Nat) (aux : Bytes) : Job := ⟨vertexDegreeApp,inputs,nReduce,aux⟩

def allVertices (inputs : List KeyValue) : List Int := inputs.flatMap fun file => vertices file.value

/-- The job ends and each vertex is a key of one output pair, with its degree. -/
def Degrees (qsort : Qsort) (job : Job) (maps reduces : List Nat) (files : Files) (vs : List Int) : Prop :=
  ∃ files' outs, runJob qsort job (tasks maps reduces) files = .ok files' ∧ outputs job files' = .ok outs ∧
    ∀ v ∈ vs, (outs.filter fun kv => kv.key = intBytes v) = [⟨intBytes v,intBytes (vs.count v)⟩]

section
variable {inputs : List KeyValue}

theorem allVertices_range (edges : ∀ file ∈ inputs, EdgeFile file.value) : ∀ v ∈ allVertices inputs, InRange v := by
  intro v inside
  obtain ⟨file,given,member⟩ := List.mem_flatMap.mp inside
  exact (edges file given).vertex member

def filePairs (file : KeyValue) : List KeyValue := vertexPairs (vertices file.value)

theorem filePairs_keys (inputs : List KeyValue) :
    (inputs.flatMap filePairs).map KeyValue.key = (allVertices inputs).map intBytes := by
  simp [allVertices,filePairs,vertexPairs,List.map_flatMap,Function.comp_def]

theorem degree_counting (edges : ∀ file ∈ inputs, EdgeFile file.value)
    (small : ∀ file ∈ inputs, (vertices file.value).length < intLimit) (n : Nat) (aux : Bytes) :
    Counting (vertexDegreeJob inputs n aux) (mapped (vertexDegreeJob inputs n aux) filePairs) := by
  have member : ∀ kv ∈ inputs.flatMap filePairs, kv.key.length = intSize ∧ kv.value = one := by
    intro kv inside
    obtain ⟨file,given,inside⟩ := List.mem_flatMap.mp inside
    obtain ⟨v,_,rfl⟩ := List.mem_map.mp inside
    exact ⟨intBytes_length v,rfl⟩
  have pairs := mapped_emitted (vertexDegreeJob inputs n aux) filePairs
  refine ⟨rfl,mapped_emits ?_,?_,?_⟩
  · intro file given
    exact vertexDegreeMap_vertices (edges file given) (small file given) aux
  · intro kv inside
    rw [pairs] at inside
    exact (member kv inside).2
  · rw [pairs]
    refine ⟨fun a inA b inB => .inr ((member a inA).1.trans (member b inB).1.symm),fun a inA => ?_⟩
    rw [(member a inA).1]
    decide

theorem degree_keys (inputs : List KeyValue) (n : Nat) (aux : Bytes) :
    (emitted (vertexDegreeJob inputs n aux) (mapped (vertexDegreeJob inputs n aux) filePairs)).map KeyValue.key =
      (allVertices inputs).map intBytes := by
  rw [mapped_emitted]
  exact filePairs_keys inputs

structure Countable (n : Nat) (inputs : List KeyValue) : Prop where
  apart : ToldApart n (allVertices inputs)
  degrees : ∀ v ∈ allVertices inputs, (allVertices inputs).count v < intLimit
  small : ∀ file ∈ inputs, (vertices file.value).length < intLimit

theorem degrees_countable (sorts : Sorts qsort) (positive : 1 ≤ n)
    (schedule : Schedule (vertexDegreeJob inputs n aux) maps reduces) (edges : ∀ file ∈ inputs, EdgeFile file.value)
    (listed : Degrees qsort (vertexDegreeJob inputs n aux) maps reduces files (allVertices inputs)) : Countable n inputs := by
  obtain ⟨files',outs,ran,read,listed⟩ := listed
  have range := allVertices_range edges
  have small : ∀ file ∈ inputs, (vertices file.value).length < intLimit := by
    intro file given
    by_contra many
    obtain ⟨i,here⟩ := List.mem_iff_getElem?.mp given
    have inside : i < inputs.length := (List.getElem?_eq_some_iff.mp here).1
    obtain ⟨fault,failed⟩ := vertexDegreeMap_fails (edges file given) (Nat.le_of_not_lt many) aux
    obtain ⟨fault',stopped⟩ : ∃ fault', runJob qsort (vertexDegreeJob inputs n aux) (tasks maps reduces) files = .error fault' :=
      map_fails ((schedule.maps i).mpr inside) here failed reduces files
    cases ran.symm.trans stopped
  have separated := separated_of_ran sorts (show 0 < (vertexDegreeJob inputs n aux).nReduce from positive)
    (degree_counting edges small n aux) schedule ran read
  rw [degree_keys] at separated
  obtain ⟨apart,counts⟩ := separated fun k known => by
    obtain ⟨v,inside,rfl⟩ := List.mem_map.mp known
    rw [intBytes_count range inside]
    have pair : (⟨intBytes v,intBytes ((allVertices inputs).count v)⟩ : KeyValue) ∈ outs.filter fun kv => kv.key = intBytes v := by
      rw [listed v inside]
      exact List.mem_singleton.mpr rfl
    exact List.mem_of_mem_filter pair
  refine ⟨(separated_toldApart range).mp apart,fun v inside => ?_,small⟩
  rw [← intBytes_count range inside]
  exact counts _

theorem countable_degrees (sorts : Sorts qsort) (positive : 1 ≤ n)
    (schedule : Schedule (vertexDegreeJob inputs n aux) maps reduces) (edges : ∀ file ∈ inputs, EdgeFile file.value)
    (countable : Countable n inputs) (files : Files) :
    Degrees qsort (vertexDegreeJob inputs n aux) maps reduces files (allVertices inputs) := by
  have range := allVertices_range edges
  have counted := counted_iff sorts (show 0 < (vertexDegreeJob inputs n aux).nReduce from positive)
    (degree_counting edges countable.small n aux) schedule files
  rw [degree_keys] at counted
  have totals : ∀ k, ((allVertices inputs).map intBytes).count k < intLimit := by
    intro k
    by_cases known : k ∈ (allVertices inputs).map intBytes
    · obtain ⟨v,inside,rfl⟩ := List.mem_map.mp known
      rw [intBytes_count range inside]
      exact countable.degrees v inside
    · rw [List.count_eq_zero_of_not_mem known]
      decide
  obtain ⟨files',outs,ran,read,counts⟩ := counted.mpr ⟨(separated_toldApart range).mpr countable.apart,totals⟩
  refine ⟨files',outs,ran,read,fun v inside => ?_⟩
  rw [counts.pair (List.mem_map_of_mem inside),intBytes_count range inside]

/-- Vertex degree ends with the degree of every vertex exactly when the comparison tells the
vertices of a reduce task apart and `int` counts each degree and the integers of each file. -/
theorem vertex_degrees_listed (sorts : Sorts qsort) (positive : 1 ≤ n)
    (schedule : Schedule (vertexDegreeJob inputs n aux) maps reduces) (edges : ∀ file ∈ inputs, EdgeFile file.value) (files : Files) :
    Degrees qsort (vertexDegreeJob inputs n aux) maps reduces files (allVertices inputs) ↔ Countable n inputs :=
  ⟨degrees_countable sorts positive schedule edges,fun countable => countable_degrees sorts positive schedule edges countable files⟩

end

/-- The edge between the vertices 1 and 2 and a loop at 2, in two files. -/
theorem vertex_degrees_listed_two :
    Degrees mergeQsort (vertexDegreeJob [⟨[],[49,32,50]⟩,⟨[],[43,50,10,32,48,50,10]⟩] 2 []) [0,1] [1,0] noFiles [1,2,2,2] := by
  have spelled : allVertices [⟨[],[49,32,50]⟩,⟨[],[43,50,10,32,48,50,10]⟩] = [1,2,2,2] := by decide
  have first : tokens [49,32,50] = [[49],[50]] := by decide
  have second : tokens [43,50,10,32,48,50,10] = [[43,50],[48,50]] := by decide
  rw [← spelled]
  refine (vertex_degrees_listed mergeQsort_sorts (by decide) ⟨?_,?_⟩ ?_ _).mpr ⟨?_,?_,?_⟩
  · intro i
    simp [vertexDegreeJob]
    omega
  · intro r
    simp [vertexDegreeJob]
    omega
  · intro file given
    rcases List.mem_pair.mp given with rfl | rfl
    · refine ⟨?_,by rw [first]; rfl⟩
      simp only [first,List.forall_mem_cons]
      exact ⟨⟨1,by decide,by decide,by decide⟩,⟨2,by decide,by decide,by decide⟩,by simp⟩
    · refine ⟨?_,by rw [second]; rfl⟩
      simp only [second,List.forall_mem_cons]
      exact ⟨⟨2,by decide,by decide,by decide⟩,⟨2,by decide,by decide,by decide⟩,by simp⟩
  · rw [spelled,ToldApart]
    decide +kernel
  · intro v _
    rw [spelled]
    exact Nat.lt_of_le_of_lt List.count_le_length (by decide)
  · intro file given
    rcases List.mem_pair.mp given with rfl | rfl <;> decide

/-- The vertices 0 and 256 fall into one group: both keys begin with a zero byte. -/
theorem vertices_merged :
    ¬∀ (qsort : Qsort) (inputs : List KeyValue) (n : Nat) (aux : Bytes) (maps reduces : List Nat) (files : Files),
      Sorts qsort → 1 ≤ n → Schedule (vertexDegreeJob inputs n aux) maps reduces → (∀ file ∈ inputs, EdgeFile file.value) →
      Degrees qsort (vertexDegreeJob inputs n aux) maps reduces files (allVertices inputs) := by
  intro all
  let inputs : List KeyValue := [⟨[],[48,32,50,53,54]⟩]
  have spelled : allVertices inputs = [0,256] := by decide
  have split : tokens [48,32,50,53,54] = [[48],[50,53,54]] := by decide
  have schedule : Schedule (vertexDegreeJob inputs 1 []) [0] [0] := ⟨by simp [vertexDegreeJob,inputs],by simp [vertexDegreeJob]⟩
  have edges : ∀ file ∈ inputs, EdgeFile file.value := by
    intro file given
    obtain rfl := List.mem_singleton.mp given
    refine ⟨?_,by rw [split]; rfl⟩
    simp only [split,List.forall_mem_cons]
    exact ⟨⟨0,by decide,by decide,by decide⟩,⟨256,by decide,by decide,by decide⟩,by simp⟩
  have listed := all mergeQsort inputs 1 [] [0] [0] noFiles mergeQsort_sorts (Nat.le_refl 1) schedule edges
  have apart := (degrees_countable mergeQsort_sorts (Nat.le_refl 1) schedule edges listed).apart
  rw [spelled] at apart
  have same := apart 0 (by simp) 256 (by simp) (by rw [Nat.mod_one,Nat.mod_one]) (by decide)
  cases same

end OsProj.Worker
