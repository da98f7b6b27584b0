import VkMiner.Aes.Agreement
import VkMiner.Aes.Host
import VkMiner.Aes.Kernel
import VkMiner.Api.ContentLength
import VkMiner.Api.Fields
import VkMiner.Api.Gates
import VkMiner.Api.Http
import VkMiner.Api.Reads
import VkMiner.Api.Routes
import VkMiner.Blake2s.Host
import VkMiner.Blake2s.Kernel
import VkMiner.Blake2s.Agreement
import VkMiner.Blake512.Host
import VkMiner.Blake512.Kernel
import VkMiner.Blake512.Agreement
import VkMiner.Bmw.Agreement
import VkMiner.Bmw.Header
import VkMiner.Bmw.Host
import VkMiner.Bmw.Kernel
import VkMiner.Bmw.Lanes
import VkMiner.Control.Answers
import VkMiner.Control.Ledger
import VkMiner.Control.Machine
import VkMiner.Control.Moves
import VkMiner.Control.Parking
import VkMiner.Control.ProfileRequest
import VkMiner.Control.Restore
import VkMiner.Control.Sections
import VkMiner.Control.Sound
import VkMiner.Control.Steady
import VkMiner.Core.Decimal
import VkMiner.Core.Hex
import VkMiner.Core.Json
import VkMiner.Cubehash.Host
import VkMiner.Cubehash.Kernel
import VkMiner.Cubehash.Agreement
import VkMiner.Echo.Agreement
import VkMiner.Echo.Counter
import VkMiner.Echo.Host
import VkMiner.Echo.Kernel
import VkMiner.Fugue.Agreement
import VkMiner.Fugue.Host
import VkMiner.Fugue.Kernel
import VkMiner.Fugue.SuperMix
import VkMiner.Groestl.Host
import VkMiner.Groestl.Planes
import VkMiner.Groestl.Sbox
import VkMiner.Groestl.Slices
import VkMiner.Heavyhash.Agreement
import VkMiner.Heavyhash.Digest
import VkMiner.Heavyhash.Host
import VkMiner.Heavyhash.Kernel
import VkMiner.Heavyhash.Lanes
import VkMiner.Heavyhash.Product
import VkMiner.Heavyhash.Rank
import VkMiner.Host.CandidateLog
import VkMiner.Host.CaptureLines
import VkMiner.Host.Captures
import VkMiner.Host.Difficulty
import VkMiner.Host.Registry
import VkMiner.Host.Replay
import VkMiner.Host.Screen
import VkMiner.Host.Switch
import VkMiner.Host.TuneCache
import VkMiner.Host.TuneStore
import VkMiner.Keccak512.Host
import VkMiner.Keccak512.Kernel
import VkMiner.Keccak512.Agreement
import VkMiner.Lbry.Agreement
import VkMiner.Lbry.Digest
import VkMiner.Lbry.Host
import VkMiner.Lbry.Kernel
import VkMiner.Lib.Cells
import VkMiner.Lib.Circuit
import VkMiner.Lib.Elimination
import VkMiner.Lib.Flow
import VkMiner.Lib.Smallest
import VkMiner.Lib.Grid
import VkMiner.Lib.Growing
import VkMiner.Lib.Halves
import VkMiner.Lib.JsonText
import VkMiner.Lib.Keccak
import VkMiner.Lib.Loops
import VkMiner.Lib.Packed
import VkMiner.Lib.Pieces
import VkMiner.Lib.Quads
import VkMiner.Lib.Romix
import VkMiner.Lib.Runs
import VkMiner.Lib.Scan
import VkMiner.Lib.Sha2
import VkMiner.Lib.Sha256
import VkMiner.Lib.Tables
import VkMiner.Lib.Transpose
import VkMiner.Luffa.Agreement
import VkMiner.Luffa.Host
import VkMiner.Luffa.Kernel
import VkMiner.Luffa.Lanes
import VkMiner.Progpow.Agreement
import VkMiner.Progpow.Bits
import VkMiner.Progpow.DagTable
import VkMiner.Progpow.Dataset
import VkMiner.Progpow.DatasetAgreement
import VkMiner.Progpow.Epochs
import VkMiner.Progpow.Hash
import VkMiner.Progpow.Height
import VkMiner.Progpow.Interpreted
import VkMiner.Progpow.Keccak
import VkMiner.Progpow.Kernel
import VkMiner.Progpow.Lanes
import VkMiner.Progpow.Lockstep
import VkMiner.Progpow.Merge
import VkMiner.Progpow.Primes
import VkMiner.Progpow.Program
import VkMiner.Progpow.Specialized
import VkMiner.Progpow.Table
import VkMiner.Progpow.WellFormed
import VkMiner.Ripemd160.Host
import VkMiner.Ripemd160.Kernel
import VkMiner.Scheduler.Device
import VkMiner.Scheduler.HostBackends
import VkMiner.Scheduler.InHand
import VkMiner.Scheduler.Loop
import VkMiner.Scheduler.NonceRange
import VkMiner.Scheduler.OnHost
import VkMiner.Scheduler.OnVulkan
import VkMiner.Scheduler.SelfTest
import VkMiner.Scheduler.Tuner
import VkMiner.Scheduler.Burst
import VkMiner.Scheduler.Passes
import VkMiner.Scheduler.Rebuild
import VkMiner.Scheduler.Reports
import VkMiner.Scheduler.Seals
import VkMiner.Scrypt.Agreement
import VkMiner.Scrypt.Digest
import VkMiner.Scrypt.Host
import VkMiner.Scrypt.Kernel
import VkMiner.Scrypt.Slabs
import VkMiner.Session.Counters
import VkMiner.Session.Link
import VkMiner.Session.Queue
import VkMiner.Session.Replies
import VkMiner.Session.Send
import VkMiner.Session.Submit
import VkMiner.Session.Thread
import VkMiner.Sha256d.Agreement
import VkMiner.Sha256d.Digest
import VkMiner.Sha256d.Host
import VkMiner.Sha256d.Kernel
import VkMiner.Sha3t.Host
import VkMiner.Sha3t.Kernel
import VkMiner.Sha3t.Agreement
import VkMiner.Sha512.Host
import VkMiner.Sha512.Kernel
import VkMiner.Sha512.Lanes
import VkMiner.Sha512256d.Agreement
import VkMiner.Sha512256d.Digest
import VkMiner.Sha512256d.Host
import VkMiner.Sha512256d.Kernel
import VkMiner.Shavite.Agreement
import VkMiner.Shavite.Host
import VkMiner.Shavite.Kernel
import VkMiner.Skein.Agreement
import VkMiner.Skein.Host
import VkMiner.Skein.Kernel
import VkMiner.Skein.Lanes
import VkMiner.Skein.Threefish
import VkMiner.Skein2.Host
import VkMiner.Skein2.Kernel
import VkMiner.Skein2.Agreement
import VkMiner.Stratum.BlockHeight
import VkMiner.Stratum.Extranonce
import VkMiner.Stratum.Handshake
import VkMiner.Stratum.Header
import VkMiner.Stratum.HexFields
import VkMiner.Stratum.Job
import VkMiner.Stratum.Method
import VkMiner.Stratum.Mixing
import VkMiner.Stratum.Notify
import VkMiner.Stratum.Receive
import VkMiner.Stratum.Requests
import VkMiner.Vulkan.Backend
import VkMiner.Vulkan.Caller
import VkMiner.Vulkan.Coverage
import VkMiner.Vulkan.Fit
import VkMiner.Vulkan.Kernel
import VkMiner.Vulkan.Outstanding
import VkMiner.Vulkan.Pipelines
import VkMiner.Vulkan.Scratch
import VkMiner.Vulkan.SharedState
import VkMiner.Vulkan.TablePieces
import VkMiner.Vulkan.TableTiled
import VkMiner.Vulkan.WouldFit
