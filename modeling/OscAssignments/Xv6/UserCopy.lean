import OscAssignments.Xv6.Statistics

namespace Xv6
open Runs

def kernbase : Nat := 0x80000000
def extmem : Nat := 0x100000
def pgsize : Nat := 4096

structure User where
  sz : BitVec 32
  esp : BitVec 32
  mem : BitVec 32 → BitVec 8

structure Store where
  addr : BitVec 32
  word : BitVec 32
  deriving DecidableEq, Repr

namespace User
variable (u : User)

def load (addr : BitVec 32) : BitVec 32 :=
  u.mem (addr + 3) ++ u.mem (addr + 2) ++ u.mem (addr + 1) ++ u.mem addr

def fetchint (addr : BitVec 32) : Option (BitVec 32) :=
  if addr ≥ u.sz ∨ addr + 4 > u.sz then none else some (u.load addr)

def argint (n : Nat) : Option (BitVec 32) := u.fetchint (u.esp + 4 + 4 * BitVec.ofNat 32 n)

def argptr (n : Nat) (size : Int) : Option (BitVec 32) := do
  let i ← u.argint n
  if size < 0 ∨ i ≥ u.sz ∨ i + BitVec.ofInt 32 size > u.sz then none else some i

def pgroundup : Nat := (u.sz.toNat + pgsize - 1) / pgsize * pgsize

def mapped (addr : BitVec 32) : Bool :=
  addr.toNat < u.pgroundup || (kernbase ≤ addr.toNat && addr.toNat < kernbase + extmem)

def bytes (s : Store) : List (BitVec 32) := [s.addr,s.addr + 1,s.addr + 2,s.addr + 3]

def storeAll : List Store → Except Halt (List Store)
  | [] => .ok []
  | s :: ss =>
    if (bytes s).all u.mapped then do
      let done ← storeAll ss
      .ok (s :: done)
    else .error (.panic "trap")

end User

def pinfoStores (ps : BitVec 32) (r : Pinfo) : List Store :=
  [⟨ps,BitVec.ofInt 32 r.pid⟩,⟨ps + 4,BitVec.ofInt 32 r.runtime⟩,
    ⟨ps + 12,BitVec.ofInt 32 r.allotedQ.1⟩,⟨ps + 16,BitVec.ofInt 32 r.allotedQ.2⟩,
    ⟨ps + 8,BitVec.ofInt 32 r.numRun⟩,
    ⟨ps + 20,BitVec.ofInt 32 (r.ticks ⟨0,by decide⟩)⟩,
    ⟨ps + 24,BitVec.ofInt 32 (r.ticks ⟨1,by decide⟩)⟩,
    ⟨ps + 28,BitVec.ofInt 32 (r.ticks ⟨2,by decide⟩)⟩,
    ⟨ps + 32,BitVec.ofInt 32 (r.ticks ⟨3,by decide⟩)⟩,
    ⟨ps + 36,BitVec.ofInt 32 (r.ticks ⟨4,by decide⟩)⟩]

def sysGetpinfo (u : User) (k k' : Kernel) : Except Halt (Int × List Store) :=
  match u.argptr 0 4, u.argint 1 with
  | some ps, some pid => do
    match ← getpinfo k k' ps pid.toInt with
    | none => .ok (-1,[])
    | some r => do
      let done ← u.storeAll (pinfoStores ps r)
      .ok (0,done)
  | _, _ => .ok (-1,[])

structure SafeReturn (u : User) (res : Int × List Store) : Prop where
  outcome : res.1 = -1 ∧ res.2 = [] ∨ res.1 = 0
  inside : ∀ s ∈ res.2, ∀ a ∈ User.bytes s, a.toNat < u.sz.toNat

def SafeCall (u : User) (out : Except Halt (Int × List Store)) : Prop :=
  ∃ res, out = .ok res ∧ SafeReturn u res

section Stores
variable {u : User} {k k' : Kernel} {ps pid : BitVec 32} {r : Pinfo}

theorem storeAll_eq_ok {ss done : List Store} :
    u.storeAll ss = .ok done ↔ done = ss ∧ ∀ s ∈ ss, ∀ a ∈ User.bytes s, u.mapped a = true := by
  induction ss generalizing done with
  | nil =>
    constructor
    · intro h
      cases h
      simp
    · rintro ⟨rfl,-⟩
      rfl
  | cons s ss ih =>
    rw [User.storeAll]
    split_ifs with hs
    · rw [bind_eq_ok]
      rw [List.all_eq_true] at hs
      constructor
      · rintro ⟨rest,hrest,h⟩
        cases h
        obtain ⟨rfl,hall⟩ := ih.mp hrest
        refine ⟨rfl,?_⟩
        intro x hx
        rcases List.mem_cons.mp hx with rfl | hx
        · exact hs
        · exact hall x hx
      · rintro ⟨rfl,hall⟩
        exact ⟨ss,ih.mpr ⟨rfl,fun x hx => hall x (List.mem_cons_of_mem _ hx)⟩,rfl⟩
    · refine iff_of_false (fun h => by cases h) ?_
      rintro ⟨-,hall⟩
      exact hs (List.all_eq_true.mpr (hall s List.mem_cons_self))

theorem argptr_some (hsz : u.sz.toNat < kernbase) (h : u.argptr 0 4 = some ps) :
    ps.toNat + 4 ≤ u.sz.toNat := by
  unfold User.argptr at h
  cases hi : u.argint 0 with
  | none =>
    rw [hi] at h
    cases h
  | some i =>
    rw [hi] at h
    simp only [Option.bind_eq_bind,Option.bind_some] at h
    split_ifs at h with hbad
    obtain rfl := Option.some.inj h
    simp only [not_or,ge_iff_le,gt_iff_lt,BitVec.le_def,BitVec.lt_def,not_le,not_lt] at hbad
    obtain ⟨-,hlt,hle⟩ := hbad
    have hadd : (i + BitVec.ofInt 32 4).toNat = i.toNat + 4 := by
      rw [show BitVec.ofInt 32 4 = 4#32 from rfl,BitVec.toNat_add]
      simp only [kernbase] at hsz
      simp
      omega
    omega

theorem pinfoStores_addr {s : Store} (hs : s ∈ pinfoStores ps r) :
    ∃ off ≤ 36, s.addr = ps + BitVec.ofNat 32 off := by
  simp only [pinfoStores,List.mem_cons,List.not_mem_nil,or_false] at hs
  rcases hs with rfl | rfl | rfl | rfl | rfl | rfl | rfl | rfl | rfl | rfl
  · exact ⟨0,by omega,(BitVec.add_zero ps).symm⟩
  · exact ⟨4,by omega,rfl⟩
  · exact ⟨12,by omega,rfl⟩
  · exact ⟨16,by omega,rfl⟩
  · exact ⟨8,by omega,rfl⟩
  · exact ⟨20,by omega,rfl⟩
  · exact ⟨24,by omega,rfl⟩
  · exact ⟨28,by omega,rfl⟩
  · exact ⟨32,by omega,rfl⟩
  · exact ⟨36,by omega,rfl⟩

theorem bytes_addr {s : Store} {a : BitVec 32} (ha : a ∈ User.bytes s) :
    ∃ j ≤ 3, a = s.addr + BitVec.ofNat 32 j := by
  simp only [User.bytes,List.mem_cons,List.not_mem_nil,or_false] at ha
  rcases ha with rfl | rfl | rfl | rfl
  · exact ⟨0,by omega,(BitVec.add_zero _).symm⟩
  · exact ⟨1,by omega,rfl⟩
  · exact ⟨2,by omega,rfl⟩
  · exact ⟨3,by omega,rfl⟩

theorem pinfoStores_byte {s : Store} {a : BitVec 32} (hps : ps.toNat + 40 ≤ 2 ^ 32)
    (hs : s ∈ pinfoStores ps r) (ha : a ∈ User.bytes s) : a.toNat < ps.toNat + 40 := by
  obtain ⟨off,hoff,haddr⟩ := pinfoStores_addr hs
  obtain ⟨j,hj,rfl⟩ := bytes_addr ha
  rw [haddr]
  simp only [BitVec.toNat_add,BitVec.toNat_ofNat]
  omega

theorem storeAll_safe_iff (hsz : u.sz.toNat < kernbase) (hps : ps.toNat + 4 ≤ u.sz.toNat) :
    (∃ done, u.storeAll (pinfoStores ps r) = .ok done ∧
      ∀ s ∈ done, ∀ a ∈ User.bytes s, a.toNat < u.sz.toNat) ↔ ps.toNat + 40 ≤ u.sz.toNat := by
  have hbase : kernbase = 2147483648 := rfl
  constructor
  · rintro ⟨done,hdone,hin⟩
    obtain ⟨rfl,-⟩ := storeAll_eq_ok.mp hdone
    have hlast := hin ⟨ps + 36,BitVec.ofInt 32 (r.ticks ⟨4,by decide⟩)⟩ (by simp [pinfoStores])
      (ps + 36 + 3) (by simp [User.bytes])
    have h36 : (36 : BitVec 32).toNat = 36 := rfl
    have h3 : (3 : BitVec 32).toNat = 3 := rfl
    rw [BitVec.toNat_add,BitVec.toNat_add,h36,h3] at hlast
    omega
  · intro hle
    have hbyte : ∀ s ∈ pinfoStores ps r, ∀ a ∈ User.bytes s, a.toNat < u.sz.toNat := by
      intro s hs a ha
      have := pinfoStores_byte (by omega) hs ha
      omega
    refine ⟨pinfoStores ps r,storeAll_eq_ok.mpr ⟨rfl,?_⟩,hbyte⟩
    intro s hs a ha
    have hlt := hbyte s hs a ha
    have hup : a.toNat < u.pgroundup := by
      unfold User.pgroundup pgsize
      omega
    simp [User.mapped,hup]

end Stores

def Reported (k k' : Kernel) (pid : Int) : Prop :=
  ∃ p, pidSlot k pid = some p ∧ ((k'.proc p).pid : Int) = pid

theorem sysGetpinfo_eq {u : User} {k k' : Kernel} {ps pid : BitVec 32}
    (hp : u.argptr 0 4 = some ps) (hi : u.argint 1 = some pid) :
    sysGetpinfo u k k' = (do
      match ← getpinfo k k' ps pid.toInt with
      | none => .ok (-1,[])
      | some r => do
        let done ← u.storeAll (pinfoStores ps r)
        .ok (0,done)) := by
  unfold sysGetpinfo
  rw [hp,hi]

theorem getpinfo_reported {k k' : Kernel} {ps : BitVec 32} {pid : Int} (hps : ps ≠ 0)
    (hpid : pid ≠ 0) :
    (Reported k k' pid ∧ ∃ r, getpinfo k k' ps pid = .ok (some r)) ∨
      ¬ Reported k k' pid ∧ getpinfo k k' ps pid = .ok none := by
  unfold getpinfo
  rw [if_neg hps,if_neg hpid]
  cases hf : pidSlot k pid with
  | none =>
    refine .inr ⟨?_,rfl⟩
    rintro ⟨p,hp,-⟩
    rw [hf] at hp
    cases hp
  | some p =>
    simp only
    split_ifs with hne
    · refine .inr ⟨?_,rfl⟩
      rintro ⟨x,hx,he⟩
      obtain rfl := Option.some.inj (hf.symm.trans hx)
      exact hne he
    · exact .inl ⟨⟨p,hf,not_not.mp hne⟩,_,rfl⟩

theorem safeCall_refused (u : User) : SafeCall u (.ok (-1,[])) :=
  ⟨_,rfl,.inl ⟨rfl,rfl⟩,by simp⟩

theorem not_safeCall_error (u : User) (e : Halt) : ¬ SafeCall u (.error e) := by
  rintro ⟨_,h,-⟩
  cases h

theorem safeCall_stored_iff {u : User} {ps : BitVec 32} {r : Pinfo}
    (hsz : u.sz.toNat < kernbase) (hps : ps.toNat + 4 ≤ u.sz.toNat) :
    SafeCall u (do
      let done ← u.storeAll (pinfoStores ps r)
      .ok (0,done)) ↔ ps.toNat + 40 ≤ u.sz.toNat := by
  rw [← storeAll_safe_iff (r := r) hsz hps]
  constructor
  · rintro ⟨res,hres,hsafe⟩
    obtain ⟨done,hdone,h⟩ := bind_eq_ok.mp hres
    cases h
    exact ⟨done,hdone,hsafe.inside⟩
  · rintro ⟨done,hdone,hin⟩
    refine ⟨(0,done),?_,.inr rfl,hin⟩
    rw [hdone]
    rfl

theorem sysGetpinfo_args_iff {u : User} {k k' : Kernel} {ps pid : BitVec 32}
    (hsz : u.sz.toNat < kernbase) (hp : u.argptr 0 4 = some ps) (hi : u.argint 1 = some pid) :
    SafeCall u (sysGetpinfo u k k') ↔
      ps ≠ 0 ∧ pid ≠ 0 ∧ (Reported k k' pid.toInt → ps.toNat + 40 ≤ u.sz.toNat) := by
  rw [sysGetpinfo_eq hp hi]
  rcases eq_or_ne ps 0 with rfl | hps
  · exact iff_of_false (not_safeCall_error u _) fun h => h.1 rfl
  rcases eq_or_ne pid 0 with rfl | hpid
  · have hzero : getpinfo k k' ps (0 : BitVec 32).toInt = .error (.panic "Pid is not set") := by
      unfold getpinfo
      rw [if_neg hps]
      rfl
    rw [hzero]
    exact iff_of_false (not_safeCall_error u _) fun h => h.2.1 rfl
  have hint : pid.toInt ≠ 0 := by
    intro h
    exact hpid (BitVec.toInt_inj.mp h)
  rcases getpinfo_reported hps hint with ⟨hrep,r,hr⟩ | ⟨hrep,hr⟩
  · rw [hr,ok_bind]
    simp only
    rw [safeCall_stored_iff hsz (argptr_some hsz hp)]
    exact ⟨fun h => ⟨hps,hpid,fun _ => h⟩,fun h => h.2.2 hrep⟩
  · rw [hr,ok_bind]
    exact iff_of_true (safeCall_refused u) ⟨hps,hpid,fun h => absurd h hrep⟩

theorem sysGetpinfo_safe_iff (u : User) (k k' : Kernel) (hsz : u.sz.toNat < kernbase) :
    SafeCall u (sysGetpinfo u k k') ↔
      ∀ ps pid, u.argptr 0 4 = some ps → u.argint 1 = some pid →
        ps ≠ 0 ∧ pid ≠ 0 ∧ (Reported k k' pid.toInt → ps.toNat + 40 ≤ u.sz.toNat) := by
  cases hp : u.argptr 0 4 with
  | none =>
    refine iff_of_true ?_ (fun _ _ h => by cases h)
    unfold sysGetpinfo
    rw [hp]
    exact safeCall_refused u
  | some ps =>
    cases hi : u.argint 1 with
    | none =>
      refine iff_of_true ?_ (fun _ _ _ h => by cases h)
      unfold sysGetpinfo
      rw [hp,hi]
      exact safeCall_refused u
    | some pid =>
      rw [sysGetpinfo_args_iff hsz hp hi]
      constructor
      · intro h ps' pid' hps hpid
        cases hps
        cases hpid
        exact h
      · intro h
        exact h ps pid rfl rfl

def caller (ps pid : BitVec 8) : User where
  sz := 4096
  esp := 1024
  mem a := if a = 1028 then ps else if a = 1032 then pid else 0

def bootedKernel : Kernel := ((xv6 .mlfq 1).after Machine.bootRun).kern

theorem sysGetpinfo_safe_iff_inside :
    SafeCall (caller 64 1) (sysGetpinfo (caller 64 1) bootedKernel bootedKernel) := by
  refine (sysGetpinfo_safe_iff _ _ _ (by decide)).mpr ?_
  intro ps pid hps hpid
  have h64 : (caller 64 1).argptr 0 4 = some 64 := by decide
  have h1 : (caller 64 1).argint 1 = some 1 := by decide
  obtain rfl := Option.some.inj (h64.symm.trans hps)
  obtain rfl := Option.some.inj (h1.symm.trans hpid)
  exact ⟨by decide,by decide,fun _ => by decide⟩

theorem sysGetpinfo_panics_on_null :
    ¬ ∀ (u : User) (k k' : Kernel), u.sz.toNat < kernbase → SafeCall u (sysGetpinfo u k k') := by
  intro h
  obtain ⟨res,hres,-⟩ := h (caller 0 1) bootedKernel bootedKernel (by decide)
  have hnull : sysGetpinfo (caller 0 1) bootedKernel bootedKernel =
      .error (.panic "Pointer is empty :/") := by
    rw [sysGetpinfo_eq (show (caller 0 1).argptr 0 4 = some 0 by decide)
      (show (caller 0 1).argint 1 = some 1 by decide)]
    rfl
  rw [hnull] at hres
  cases hres

end Xv6
