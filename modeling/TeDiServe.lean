import TeDiServe.Placement.AbortTotal
import TeDiServe.Placement.Arrival
import TeDiServe.Placement.Reuse
import TeDiServe.Placement.RowLimit
import TeDiServe.Protocol.Drain
import TeDiServe.Protocol.Liveness
import TeDiServe.Protocol.Owns
import TeDiServe.Deferral.Conservation
import TeDiServe.Deferral.Queue
import TeDiServe.Cache.Order
import TeDiServe.Load.Profile
import TeDiServe.Load.Reselect
import TeDiServe.Load.Defaults
import TeDiServe.Load.Predictions
import TeDiServe.Worker.TokenArray
import TeDiServe.Worker.Persistent
import TeDiServe.Worker.Arrays
import TeDiServe.Fleet.Agreement
import TeDiServe.Fleet.FullSteps
import TeDiServe.FrontEnd.Stream
import TeDiServe.Reconfig.Ids
import TeDiServe.Reconfig.Adoption
import TeDiServe.Reconfig.Realise
import TeDiServe.Reconfig.Workload
