import Mathlib.Data.List.Basic

/-!
# Connection parameters

The transport's configuration with the window sizes derived from it, the
connection states, and the round-trip estimator. Arithmetic on `u32` wraps, as
it does in the release build.
-/

namespace XrayCore.Kcp

structure Config where
  mtu : UInt32
  tti : UInt32
  uplinkCapacity : UInt32
  downlinkCapacity : UInt32
  cwndMultiplier : UInt32
  maxSendingWindow : UInt32
  deriving DecidableEq

def defaultConfig : Config := ⟨1350, 50, 5, 20, 1, 2 * 1024 * 1024⟩

def Config.inFlightSize (c : Config) (capacity : UInt32) : UInt32 :=
  let mtu := max c.mtu 1
  let tti := min (max c.tti 1) 1000
  let size := capacity * 1024 * 1024 / mtu / (1000 / tti)
  if size < 8 then 8 else size

def Config.getSendingInFlightSize (c : Config) : UInt32 := c.inFlightSize c.uplinkCapacity

def Config.getReceivingInFlightSize (c : Config) : UInt32 := c.inFlightSize c.downlinkCapacity

def Config.getSendingBufferSize (c : Config) : UInt32 := c.maxSendingWindow / max c.mtu 1

inductive State
  | active
  | readyToClose
  | peerClosed
  | terminating
  | peerTerminating
  | terminated
  deriving DecidableEq

structure RoundTripInfo where
  variation : UInt32
  srtt : UInt32
  rto : UInt32
  minRtt : UInt32
  updatedTimestamp : UInt32
  deriving DecidableEq

namespace RoundTripInfo

def new (minRtt : UInt32) : RoundTripInfo := ⟨0, 0, 100, minRtt, 0⟩

def updatePeerRto (r : RoundTripInfo) (rto current : UInt32) : RoundTripInfo :=
  if current - r.updatedTimestamp < 3000 then r
  else { r with updatedTimestamp := current, rto := rto }

def smooth (r : RoundTripInfo) (rtt : UInt32) : RoundTripInfo :=
  if r.srtt = 0 then { r with srtt := rtt, variation := rtt / 2 }
  else
    let delta := if r.srtt < rtt then rtt - r.srtt else r.srtt - rtt
    let srtt := (7 * r.srtt + rtt) / 8
    { r with
      variation := (3 * r.variation + delta) / 4
      srtt := if srtt < r.minRtt then r.minRtt else srtt }

def update (r : RoundTripInfo) (rtt current : UInt32) : RoundTripInfo :=
  if 0x7FFFFFFF < rtt then r
  else
    let s := r.smooth rtt
    let rto := if s.minRtt < 4 * s.variation then s.srtt + 4 * s.variation
      else s.srtt + s.variation
    let rto := if 10000 < rto then 10000 else rto
    { s with rto := rto * 5 / 4, updatedTimestamp := current }

def timeout (r : RoundTripInfo) : UInt32 := r.rto

end RoundTripInfo

end XrayCore.Kcp
